import Mathlib

/-!
# Runs of a partial step function

`step s a = none` means that taking step `a` in state `s` is undefined. A run
is *safe* for a property when no step of it is undefined and every state it
goes through has the property (`HoldsThroughout`); it is *guarded* when each
step meets a condition on the state it is taken in (`Guarded`).
`holdsThroughout_of_guarded` is the one induction every run theorem uses.
-/

namespace Base.Run

variable {σ α : Type} (step : σ → α → Option σ)

/-- The state after the steps `as`. -/
def run : σ → List α → Option σ
  | s, [] => some s
  | s, a :: as => (step s a).bind (run · as)

/-- Every state of the run has `P`, and no step is undefined. -/
def HoldsThroughout (P : σ → Prop) : σ → List α → Prop
  | s, [] => P s
  | s, a :: as => P s ∧ ∃ s', step s a = some s' ∧ HoldsThroughout P s' as

/-- Every state after a step has `P`, and no step is undefined. -/
def HoldsAfter (P : σ → Prop) : σ → List α → Prop
  | _, [] => True
  | s, a :: as => ∃ s', step s a = some s' ∧ P s' ∧ HoldsAfter P s' as

/-- Every step of the run meets `ok` in the state it is taken in. -/
def Guarded (ok : σ → α → Prop) : σ → List α → Prop
  | _, [] => True
  | s, a :: as => ok s a ∧ ∀ s', step s a = some s' → Guarded ok s' as

/-- Whether a run is guarded can be computed. -/
instance decidableGuarded {ok : σ → α → Prop} [∀ s a, Decidable (ok s a)] :
    ∀ s as, Decidable (Guarded step ok s as)
  | _, [] => isTrue trivial
  | s, a :: as =>
    match h : step s a with
    | none => decidable_of_iff (ok s a) ⟨fun hok => ⟨hok, fun s' hs' => by
      rw [h] at hs'
      cases hs'⟩, fun hg => hg.1⟩
    | some s' =>
      have : Decidable (Guarded step ok s' as) := decidableGuarded s' as
      decidable_of_iff (ok s a ∧ Guarded step ok s' as) ⟨fun hg => ⟨hg.1, fun t ht => by
        rw [h] at ht
        cases ht
        exact hg.2⟩, fun hg => ⟨hg.1, hg.2 s' h⟩⟩

variable {step}

/-- What a guarded step preserves, a guarded run preserves. -/
theorem holdsThroughout_of_guarded {P : σ → Prop} {ok : σ → α → Prop}
    (hstep : ∀ s a, P s → ok s a → ∃ s', step s a = some s' ∧ P s') :
    ∀ (as : List α) (s : σ), P s → Guarded step ok s as → HoldsThroughout step P s as := by
  intro as
  induction as with
  | nil => exact fun s hs _ => hs
  | cons a as ih =>
    intro s hs hg
    obtain ⟨s', hs', hP⟩ := hstep s a hs hg.1
    exact ⟨hs, s', hs', ih s' hP (hg.2 s' hs')⟩

/-- A run keeps what its steps keep exactly if it is guarded by what they need. -/
theorem holdsThroughout_iff_guarded {P : σ → Prop} {ok : σ → α → Prop}
    (hstep : ∀ s a, P s → ∃ s', step s a = some s' ∧ (P s' ↔ ok s a)) :
    ∀ (as : List α) (s : σ), P s → (HoldsThroughout step P s as ↔ Guarded step ok s as) := by
  intro as
  induction as with
  | nil => exact fun s hs => iff_of_true hs trivial
  | cons a as ih =>
    intro s hs
    obtain ⟨s', hs', hiff⟩ := hstep s a hs
    constructor
    · rintro ⟨-, t, ht, hrest⟩
      obtain rfl : s' = t := Option.some.inj (hs'.symm.trans ht)
      have hP : P s' := by
        cases as with
        | nil => exact hrest
        | cons b as => exact hrest.1
      refine ⟨hiff.mp hP, fun t ht => ?_⟩
      obtain rfl : s' = t := Option.some.inj (hs'.symm.trans ht)
      exact (ih s' hP).mp hrest
    · rintro ⟨hok, hrest⟩
      have hP := hiff.mpr hok
      exact ⟨hs, s', hs', (ih s' hP).mpr (hrest s' hs')⟩

/-- A property holds after every step, from any state with `I`, exactly if the run is guarded
by what each step needs for it. -/
theorem holdsAfter_iff_guarded {I P : σ → Prop} {ok : σ → α → Prop}
    (hkeep : ∀ s a s', I s → step s a = some s' → I s')
    (hstep : ∀ s a, I s → ((∃ s', step s a = some s' ∧ P s') ↔ ok s a)) :
    ∀ (as : List α) (s : σ), I s → (HoldsAfter step P s as ↔ Guarded step ok s as) := by
  intro as
  induction as with
  | nil => exact fun s _ => Iff.rfl
  | cons a as ih =>
    intro s hs
    constructor
    · rintro ⟨t, ht, hP, hrest⟩
      refine ⟨(hstep s a hs).mp ⟨t, ht, hP⟩, fun u hu => ?_⟩
      obtain rfl : t = u := Option.some.inj (ht.symm.trans hu)
      exact (ih t (hkeep s a t hs ht)).mp hrest
    · rintro ⟨hok, hrest⟩
      obtain ⟨t, ht, hP⟩ := (hstep s a hs).mpr hok
      exact ⟨t, ht, hP, (ih t (hkeep s a t hs ht)).mpr (hrest t ht)⟩

/-- What meets one condition meets another, in every state of an invariant: so do the runs. -/
theorem Guarded.imp {I : σ → Prop} {ok ok' : σ → α → Prop}
    (hkeep : ∀ s a s', I s → step s a = some s' → I s')
    (himp : ∀ s a, I s → ok s a → ok' s a) {as : List α} :
    ∀ {s : σ}, I s → Guarded step ok s as → Guarded step ok' s as := by
  induction as with
  | nil => exact fun _ _ => trivial
  | cons a as ih =>
    intro s hs h
    exact ⟨himp s a hs h.1, fun s' hs' => ih (hkeep s a s' hs hs') (h.2 s' hs')⟩

/-- A run of total steps is guarded up to any point and from the state reached there. -/
theorem guarded_append {ok : σ → α → Prop} (next : σ → α → σ)
    (hnext : ∀ s a, step s a = some (next s a)) {as bs : List α} :
    ∀ {s : σ}, Guarded step ok s (as ++ bs) →
      Guarded step ok s as ∧ Guarded step ok (as.foldl next s) bs := by
  induction as with
  | nil => exact fun h => ⟨trivial, h⟩
  | cons a as ih =>
    intro s h
    obtain ⟨has, hbs⟩ := ih (h.2 _ (hnext s a))
    refine ⟨⟨h.1, fun s' hs' => ?_⟩, hbs⟩
    rw [← Option.some.inj ((hnext s a).symm.trans hs')]
    exact has

/-- A guarded run is guarded up to any point, and from the state reached there. -/
theorem Guarded.split {ok : σ → α → Prop} {as bs : List α} :
    ∀ {s : σ}, Guarded step ok s (as ++ bs) →
      Guarded step ok s as ∧ ∀ t, run step s as = some t → Guarded step ok t bs := by
  induction as with
  | nil =>
    intro s h
    refine ⟨trivial, fun t ht => ?_⟩
    obtain rfl : s = t := Option.some.inj ht
    exact h
  | cons a as ih =>
    intro s h
    refine ⟨⟨h.1, fun s' hs' => (ih (h.2 s' hs')).1⟩, fun t ht => ?_⟩
    obtain ⟨s', hs', hrest⟩ := Option.bind_eq_some_iff.mp ht
    exact (ih (h.2 s' hs')).2 t hrest

/-- What a guarded step preserves holds in every state a guarded run reaches,
also where a step may be undefined. -/
theorem reached_of_guarded {P : σ → Prop} {ok : σ → α → Prop}
    (hstep : ∀ s a s', P s → ok s a → step s a = some s' → P s') {as : List α} :
    ∀ {s t : σ}, P s → Guarded step ok s as → run step s as = some t → P t := by
  induction as with
  | nil =>
    intro s t hs _ hrun
    obtain rfl : s = t := Option.some.inj hrun
    exact hs
  | cons a as ih =>
    intro s t hs hg hrun
    obtain ⟨s', hs', hrest⟩ := Option.bind_eq_some_iff.mp hrun
    exact ih (hstep s a s' hs hg.1 hs') (hg.2 s' hs') hrest

/-- What every step preserves holds in every state reached. -/
theorem reached {P : σ → Prop} (hstep : ∀ s a s', P s → step s a = some s' → P s')
    {as : List α} : ∀ {s t : σ}, P s → run step s as = some t → P t := by
  induction as with
  | nil =>
    intro s t hs hrun
    obtain rfl : s = t := Option.some.inj hrun
    exact hs
  | cons a as ih =>
    intro s t hs hrun
    obtain ⟨s', hs', hrest⟩ := Option.bind_eq_some_iff.mp hrun
    exact ih (hstep s a s' hs hs') hrest

theorem HoldsThroughout.mono {P Q : σ → Prop} (hPQ : ∀ s, P s → Q s) {as : List α} :
    ∀ {s : σ}, HoldsThroughout step P s as → HoldsThroughout step Q s as := by
  induction as with
  | nil => exact fun h => hPQ _ h
  | cons a as ih => exact fun ⟨h, s', hs', hrest⟩ => ⟨hPQ _ h, s', hs', ih hrest⟩

/-- A property that holds throughout holds in the state reached. -/
theorem HoldsThroughout.reached {P : σ → Prop} {s t : σ} {as : List α}
    (h : HoldsThroughout step P s as) (ht : run step s as = some t) : P t := by
  induction as generalizing s with
  | nil =>
    obtain rfl : s = t := Option.some.inj ht
    exact h
  | cons a as ih =>
    obtain ⟨_, s', hs', hrest⟩ := h
    rw [run, hs'] at ht
    exact ih hrest ht

/-! ## Folds -/

/-- What a step preserves while its argument adds to a load, a fold preserves. -/
theorem foldl_load {step : σ → α → σ} (P : Nat → σ → Prop) (load : α → Nat) {as : List α}
    (hstep : ∀ n s, ∀ a ∈ as, P n s → P (n + load a) (step s a)) {n : Nat} {s : σ} (hs : P n s) :
    P (n + (as.map load).sum) (as.foldl step s) := by
  induction as generalizing n s with
  | nil => exact hs
  | cons a as ih =>
    have hnext := hstep n s a List.mem_cons_self hs
    have hrest := ih (fun n s b hb => hstep n s b (List.mem_cons_of_mem a hb)) hnext
    rw [List.map_cons, List.sum_cons, ← Nat.add_assoc]
    exact hrest

/-- The same for a step that can fail. -/
theorem foldlM_load {step : σ → α → Option σ} (P : Nat → σ → Prop) (load : α → Nat)
    {as : List α}
    (hstep : ∀ n s s', ∀ a ∈ as, P n s → step s a = some s' → P (n + load a) s')
    {n : Nat} {s t : σ} (hs : P n s) (ht : as.foldlM step s = some t) :
    P (n + (as.map load).sum) t := by
  induction as generalizing n s with
  | nil =>
    obtain rfl : s = t := Option.some.inj ht
    exact hs
  | cons a as ih =>
    rw [List.foldlM_cons, Option.bind_eq_bind, Option.bind_eq_some_iff] at ht
    obtain ⟨s', hs', ht⟩ := ht
    have hnext := hstep n s s' a List.mem_cons_self hs hs'
    have hrest := ih (fun n s s' b hb => hstep n s s' b (List.mem_cons_of_mem a hb)) hnext ht
    rw [List.map_cons, List.sum_cons, ← Nat.add_assoc]
    exact hrest

/-- Where a step goes through exactly for good arguments, in every state of an invariant, a fold
goes through exactly for good lists. -/
theorem foldlM_isSome_iff {step : σ → α → Option σ} (P : σ → Prop) (ok : α → Prop)
    (hstep : ∀ s a, P s → ((step s a).isSome = true ↔ ok a))
    (hkeep : ∀ s a s', P s → step s a = some s' → P s') {as : List α} {s : σ} (hs : P s) :
    (as.foldlM step s).isSome = true ↔ ∀ a ∈ as, ok a := by
  induction as generalizing s with
  | nil => exact iff_of_true rfl fun a ha => absurd ha List.not_mem_nil
  | cons a as ih =>
    rw [List.foldlM_cons, List.forall_mem_cons, ← hstep s a hs]
    cases hnext : step s a with
    | none => exact iff_of_false Bool.false_ne_true fun h => Bool.false_ne_true h.1
    | some s' =>
      rw [← ih (hkeep s a s' hs hnext)]
      exact (and_iff_right rfl).symm

end Base.Run
