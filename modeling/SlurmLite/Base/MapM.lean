import Mathlib.Data.List.Forall2

/-!
# Maps that may fail

`List.mapM` in `Option`: it gives a list exactly when it gives something for each element,
and then what it gives, in order.
-/

namespace Base.MapM

variable {α β γ : Type*} {f : α → Option β} {l : List α} {bs : List β}

theorem mapM_eq_some_iff :
    l.mapM f = some bs ↔ List.Forall₂ (fun a b => f a = some b) l bs := by
  induction l generalizing bs with
  | nil =>
    rw [List.mapM_nil, List.forall₂_nil_left_iff]
    exact ⟨fun h => (Option.some.inj h).symm, fun h => congrArg some h.symm⟩
  | cons a l ih =>
    rw [List.mapM_cons, List.forall₂_cons_left_iff]
    constructor
    · intro h
      obtain ⟨b, hb, h⟩ := Option.bind_eq_some_iff.mp h
      obtain ⟨bs', hbs', h⟩ := Option.bind_eq_some_iff.mp h
      exact ⟨b, bs', hb, ih.mp hbs', (Option.some.inj h).symm⟩
    · rintro ⟨b, bs', hb, hbs', rfl⟩
      rw [hb, ih.mpr hbs']
      rfl

theorem length_of_mapM (h : l.mapM f = some bs) : bs.length = l.length :=
  (mapM_eq_some_iff.mp h).length_eq.symm

theorem of_mem_mapM {b : β} (h : l.mapM f = some bs) (hb : b ∈ bs) : ∃ a ∈ l, f a = some b := by
  have hall := mapM_eq_some_iff.mp h
  obtain ⟨i, hi, rfl⟩ := List.getElem_of_mem hb
  have hlen := hall.length_eq
  exact ⟨l[i], List.getElem_mem _, List.forall₂_iff_get.mp hall |>.2 i (by omega) hi⟩

theorem mem_mapM {a : α} (h : l.mapM f = some bs) (ha : a ∈ l) : ∃ b ∈ bs, f a = some b := by
  have hall := mapM_eq_some_iff.mp h
  obtain ⟨i, hi, rfl⟩ := List.getElem_of_mem ha
  have hlen := hall.length_eq
  have hi' : i < bs.length := by omega
  exact ⟨bs[i], List.getElem_mem _, List.forall₂_iff_get.mp hall |>.2 i hi hi'⟩

theorem exists_mapM (h : ∀ a ∈ l, ∃ b, f a = some b) : ∃ bs, l.mapM f = some bs := by
  induction l with
  | nil => exact ⟨[], rfl⟩
  | cons a l ih =>
    obtain ⟨b, hb⟩ := h a List.mem_cons_self
    obtain ⟨bs, hbs⟩ := ih fun c hc => h c (List.mem_cons_of_mem _ hc)
    refine ⟨b :: bs, ?_⟩
    rw [List.mapM_cons, hb, hbs]
    rfl

theorem mapM_eq_map_iff {g : α → β} :
    l.mapM f = some (l.map g) ↔ ∀ a ∈ l, f a = some (g a) := by
  rw [mapM_eq_some_iff, List.forall₂_map_right_iff, List.forall₂_same]

theorem mapM_map {g : γ → α} {k : γ → β} {l : List γ} (h : ∀ x ∈ l, f (g x) = some (k x)) :
    (l.map g).mapM f = some (l.map k) := by
  rw [List.mapM_map]
  exact mapM_eq_map_iff.mpr h

end Base.MapM
