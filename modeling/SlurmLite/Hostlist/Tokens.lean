import SlurmLite.Hostlist.Parse

/-!
# The tokens of a hostlist text

`segments` cuts a text at the separators that stand outside brackets, which is
what the tokens are meant to be. `_next_tok` finds the end of a token by
searching for brackets: it looks for a second group in the first characters of
the token, as many as follow the first group, and does not read on behind the
second group. `tokens_iff` says for which texts it yields the segments: every
token whose second group holds a separator must have one in its first group,
be reached by that search, and end with the second group (`Uncut`).
-/

namespace Slurm.Hosts

open Base.CLib Base.Buffer

/-! ## What the tokens are meant to be -/

/-- Whether a bracket is open behind `c`. -/
def bracketOpen (inside : Bool) (c : Char) : Bool :=
  if c = '[' then true else if c = ']' then false else inside

/-- The pieces between the separators outside brackets, empty ones too. -/
def pieces (sep : List Char) : Bool → List Char → List (List Char)
  | _, [] => [[]]
  | inside, c :: s =>
    if !inside && sep.contains c then [] :: pieces sep inside s
    else (pieces sep (bracketOpen inside c) s).modifyHead (c :: ·)

/-- The maximal segments between separators that lie outside brackets. -/
def segments (sep s : List Char) : List (List Char) :=
  (pieces sep false s).filter (· ≠ [])

/-- A text without brackets. -/
def NoBracket (s : List Char) : Prop := '[' ∉ s ∧ ']' ∉ s

instance decidableNoBracket (s : List Char) : Decidable (NoBracket s) :=
  inferInstanceAs (Decidable (_ ∧ _))

/-- A bracket group and the text after it. -/
def group (g s : List Char) : List Char := '[' :: g ++ ']' :: s

/-- At most two bracket groups, balanced and not nested. -/
inductive TwoGroups : List Char → Prop
  | none {p : List Char} : NoBracket p → TwoGroups p
  | one {p g q : List Char} : NoBracket p → NoBracket g → NoBracket q →
      TwoGroups (p ++ group g q)
  | two {p g q h r : List Char} : NoBracket p → NoBracket g → NoBracket q → NoBracket h →
      NoBracket r → TwoGroups (p ++ group g (q ++ group h r))

/-! ## What the calls yield -/

/-- The tokens of successive calls of `_next_tok`. -/
def tokenLoop (sep : List Char) : Nat → List Char → List (List Char)
  | 0, _ => []
  | fuel + 1, s =>
    match nextTok sep s with
    | none => []
    | some (buf, k) => cstr buf :: tokenLoop sep fuel (buf.drop k)

/-- The tokens of a text. Every token takes at least one character. -/
def tokens (sep s : List Char) : List (List Char) := tokenLoop sep (s.length + 1) s

/-- The offsets from `tok` of the pointers `_next_tok` forms behind it, and of the
ends of its searches there; `none` when the length of a search is not the
distance between two pointers into the text in their order. -/
def tokPointers (sep t : List Char) : Option (List Nat) :=
  let e := scanTok sep t
  if (t.take e).contains '[' && !(t.take e).contains ']' then
    match strchr ']' (cstr (t.drop e)) with
    | none => if cstr (t.drop e) = [] then some [e] else none
    | some (u, _) =>
      if u.contains '[' then none
      else
        let q := e + u.length + 1
        let e' := q + scanTok sep (t.drop q)
        if cstr (t.drop e') ≠ [] && (t.take (e' - q)).contains '[' &&
            !(t.take (e' - q)).contains ']' then
          match strchr ']' (cstr (t.drop e')) with
          | none => some [e, e + u.length, q, e', e' - q]
          | some (v, _) => some [e, e + u.length, q, e', e' - q, e' + v.length,
              e' + v.length + 1]
        else some [e, e + u.length, q, e', e' - q]
  else some [e]

/-- Every call forms pointers into its text only. -/
def pointersLoop (sep : List Char) : Nat → List Char → Prop
  | 0, _ => True
  | fuel + 1, s =>
    match nextTok sep s with
    | none => True
    | some (buf, k) =>
      let t := s.dropWhile (sep.contains ·)
      (∃ ps, tokPointers sep t = some ps ∧ ∀ p ∈ k :: ps, p ≤ t.length) ∧
        pointersLoop sep fuel (buf.drop k)

/-- Every pointer of the calls on a text stays inside it. -/
def PointersInside (sep s : List Char) : Prop := pointersLoop sep (s.length + 1) s

/-- The text before the first bracket group, inside it, and after it. -/
def cutGroup (s : List Char) : Option (List Char × List Char × List Char) := do
  let (p, r) ← strchr '[' s
  let (g, q) ← strchr ']' r
  some (p, g, q)

/-- The tokens that are not cut: one whose second group holds a separator has one
in its first group too and ends with the second group, and between the groups
and in the second one up to its separator there are more characters than before
the first bracket, and no more than up to the first closing one. -/
def Uncut (sep t : List Char) : Prop :=
  match cutGroup t with
  | none => True
  | some (p, g, s) =>
    match cutGroup s with
    | none => True
    | some (q, h, r) =>
      (∃ c ∈ h, c ∈ sep) →
        (∃ c ∈ g, c ∈ sep) ∧ r = [] ∧
          p.length < q.length + 1 + (h.takeWhile (!sep.contains ·)).length ∧
          q.length + 1 + (h.takeWhile (!sep.contains ·)).length ≤ p.length + 1 + g.length

/-! ## The segments of a text -/

/-- The text does not start with a character of the token before it. -/
def StopsAt (sep s : List Char) : Prop := ∀ c ∈ s.head?, c ∈ sep

/-- No separator outside brackets. -/
def unbroken (sep : List Char) : Bool → List Char → Prop
  | _, [] => True
  | inside, c :: s => (inside = false → c ∉ sep) ∧ unbroken sep (bracketOpen inside c) s

/-- The first piece ends at a separator or with the text. -/
theorem pieces_eq {sep : List Char} (t : List Char) : ∀ inside,
    ∃ T rest, t = T ++ rest ∧ StopsAt sep rest ∧ unbroken sep inside T ∧
      pieces sep inside t = T :: (match rest with | [] => [] | _ :: s => pieces sep false s) := by
  induction t with
  | nil => exact fun inside => ⟨[], [], rfl, by simp [StopsAt], trivial, rfl⟩
  | cons c t ih =>
    intro inside
    rw [pieces]
    by_cases hsep : (!inside && sep.contains c) = true
    · rw [if_pos hsep]
      simp only [Bool.and_eq_true, Bool.not_eq_true', List.contains_iff_mem] at hsep
      refine ⟨[], c :: t, rfl, ?_, trivial, ?_⟩
      · intro d hd
        cases hd
        exact hsep.2
      · rw [hsep.1]
    · rw [if_neg hsep]
      obtain ⟨T, rest, ht, hrest, hun, hpieces⟩ := ih (bracketOpen inside c)
      refine ⟨c :: T, rest, by rw [ht]; rfl, hrest, ⟨fun hin hc => hsep ?_, hun⟩, ?_⟩
      · simp [hin, hc]
      · rw [hpieces]
        rfl

theorem segments_nil (sep : List Char) : segments sep [] = [] := rfl

theorem segments_sep {sep : List Char} {c : Char} (hc : c ∈ sep) (s : List Char) :
    segments sep (c :: s) = segments sep s := by
  rw [segments, pieces, if_pos (by simp [hc])]
  rfl

/-- Leading separators belong to no segment. -/
theorem segments_dropWhile (sep s : List Char) :
    segments sep (s.dropWhile (sep.contains ·)) = segments sep s := by
  induction s with
  | nil => rfl
  | cons c s ih =>
    by_cases hc : c ∈ sep
    · rw [List.dropWhile_cons_of_pos (by simpa using hc), ih, segments_sep hc]
    · rw [List.dropWhile_cons_of_neg (by simpa using hc)]

/-- Behind the separators nothing is left, or a token starts. -/
theorem dropWhile_stopsAt {sep s : List Char} (h : StopsAt sep (s.dropWhile (sep.contains ·))) :
    s.dropWhile (sep.contains ·) = [] := by
  cases ht : s.dropWhile (sep.contains ·) with
  | nil => rfl
  | cons c t =>
    have hno := List.head?_dropWhile_not (sep.contains ·) s
    rw [ht] at h hno
    have hc : c ∈ sep := h c rfl
    simp [hc] at hno

theorem dropWhile_eq_self {sep t : List Char} (h : ¬ StopsAt sep t) :
    t.dropWhile (sep.contains ·) = t := by
  cases t with
  | nil => rfl
  | cons c t =>
    have hc : c ∉ sep := fun hc => h fun d hd => by cases hd; exact hc
    exact List.dropWhile_cons_of_neg (by simpa using hc)

/-- The first segment, and the segments of what follows it. -/
theorem segments_eq {sep t : List Char} (ht : ¬ StopsAt sep t) :
    ∃ T rest, t = T ++ rest ∧ T ≠ [] ∧ StopsAt sep rest ∧ unbroken sep false T ∧
      segments sep t = T :: segments sep rest := by
  obtain ⟨T, rest, heq, hrest, hun, hpieces⟩ := @pieces_eq sep t false
  have hT : T ≠ [] := by
    rintro rfl
    exact ht (heq ▸ hrest)
  refine ⟨T, rest, heq, hT, hrest, hun, ?_⟩
  rw [segments, hpieces, List.filter_cons_of_pos (by simpa using hT)]
  cases rest with
  | nil => rfl
  | cons c rest => rw [segments_sep (hrest c rfl), segments]

/-! ## Where a token ends -/

theorem scanTok_stop {sep s rest : List Char} (hs : ∀ c ∈ s, c ∉ sep) (hnul : nul ∉ s)
    (hrest : StopsAt sep rest) : scanTok sep (s ++ rest) = s.length := by
  refine scanTok_append (fun c hc => ⟨?_, hs c hc⟩) hrest
  rintro rfl
  exact hnul hc

theorem mem_take_cons {c : Char} {p : List Char} (hp : c ∉ p) (s : List Char) (n : Nat) :
    c ∈ (p ++ c :: s).take n ↔ p.length < n := by
  rw [List.take_append, List.mem_append]
  constructor
  · rintro (h | h)
    · exact absurd (List.mem_of_mem_take h) hp
    · by_contra hle
      rw [Nat.sub_eq_zero_of_le (by omega)] at h
      simp at h
  · intro h
    right
    rw [show n - p.length = (n - p.length - 1) + 1 by omega, List.take_succ_cons]
    exact List.mem_cons_self

section
variable {sep : List Char}

/-- With no bracket left open, the token ends where the scan stops. -/
theorem tokEnd_scan {s rest : List Char} (hs : ∀ c ∈ s, c ∉ sep) (hnul : nul ∉ s)
    (hrest : StopsAt sep rest) (hclosed : '[' ∈ s → ']' ∈ s) :
    tokEnd sep (s ++ rest) = s.length ∧ tokPointers sep (s ++ rest) = some [s.length] := by
  have hscan := scanTok_stop hs hnul hrest
  have hif : ((s.contains '[') && !(s.contains ']')) = false := by
    by_cases ho : '[' ∈ s
    · simp [hclosed ho]
    · simp [ho]
  unfold tokEnd tokPointers
  simp only [hscan, List.take_left, hif, Bool.false_eq_true, if_false, and_self]

/-- With the first bracket open where the scan stops, it goes on behind the closing
one; what ends the token then is decided by the search for a second group in
the first `q.length` characters. -/
theorem tokEnd_first {p a b q rest t : List Char}
    (ht : t = (p ++ '[' :: a) ++ (b ++ ']' :: (q ++ rest))) (hnul : nul ∉ t)
    (hp : NoBracket p) (ha : NoBracket a) (hb : NoBracket b)
    (hps : ∀ c ∈ p ++ '[' :: a, c ∉ sep) (hbs : StopsAt sep (b ++ ']' :: (q ++ rest)))
    (hqs : ∀ c ∈ q, c ∉ sep) (hrest : StopsAt sep rest) :
    let e := (p ++ '[' :: a).length + b.length + 1 + q.length
    let second := decide (rest ≠ []) && (t.take q.length).contains '[' &&
      !(t.take q.length).contains ']'
    (tokEnd sep t = if second then
        match strchr ']' rest with
        | none => e
        | some (v, _) => if v.contains '[' then e else e + v.length + 1
      else e) ∧ tokPointers sep t ≠ none := by
  intro e second
  have hcstr : ∀ n, cstr (t.drop n) = t.drop n := fun n =>
    cstr_of_not_mem fun h => hnul (List.mem_of_mem_drop h)
  -- the scan stops inside the first group
  have hscan : scanTok sep t = (p ++ '[' :: a).length := by
    rw [ht]
    exact scanTok_stop hps (fun h => hnul (by rw [ht]; exact List.mem_append_left _ h)) hbs
  have htake : t.take (scanTok sep t) = p ++ '[' :: a := by
    rw [hscan, ht, List.take_left]
  have hdrop : t.drop (scanTok sep t) = b ++ ']' :: (q ++ rest) := by
    rw [hscan, ht, List.drop_left]
  have hopen : ((t.take (scanTok sep t)).contains '[' &&
      !(t.take (scanTok sep t)).contains ']') = true := by
    rw [htake]
    simp [hp.2, ha.2]
  have hclose : strchr ']' (t.drop (scanTok sep t)) = some (b, q ++ rest) := by
    rw [hdrop, strchr_append hb.2]
  -- behind the closing bracket it goes on to the next separator
  have hdrop2 : t.drop (scanTok sep t + b.length + 1) = q ++ rest := by
    rw [Nat.add_assoc, ← List.drop_drop, hdrop, ← List.drop_drop, List.drop_left]
    rfl
  have hscan2 : scanTok sep (t.drop (scanTok sep t + b.length + 1)) = q.length := by
    rw [hdrop2]
    exact scanTok_stop hqs (fun h => hnul (by rw [ht]; simp [h])) hrest
  have hdrop3 : t.drop (scanTok sep t + b.length + 1 + q.length) = rest := by
    rw [← List.drop_drop, hdrop2, List.drop_left]
  have hcrest : cstr rest = rest := by
    have h := hcstr (scanTok sep t + b.length + 1 + q.length)
    rwa [hdrop3] at h
  have hb1 : b.contains '[' = false := by simp [hb.1]
  unfold tokEnd tokPointers
  simp only [hcstr, hopen, if_true, hclose, hb1, Bool.false_eq_true, if_false, hscan2, hdrop3,
    hcrest, Nat.add_sub_cancel_left]
  refine ⟨hscan ▸ rfl, ?_⟩
  split
  · split <;> simp
  · simp

/-! ## Groups -/

theorem cutGroup_none {p : List Char} (h : NoBracket p) : cutGroup p = none := by
  rw [cutGroup, strchr_eq_none h.1]
  rfl

theorem cutGroup_group {p g : List Char} (hp : NoBracket p) (hg : NoBracket g) (q : List Char) :
    cutGroup (p ++ group g q) = some (p, g, q) := by
  rw [cutGroup, group, List.cons_append, strchr_append hp.1]
  simp [strchr_append hg.2]

theorem notSep_group (ho : '[' ∉ sep) (hc : ']' ∉ sep) {g s : List Char}
    (hg : ¬ ∃ c ∈ g, c ∈ sep) (hs : ∀ c ∈ s, c ∉ sep) : ∀ c ∈ group g s, c ∉ sep := by
  intro c hm hsep
  simp only [group, List.cons_append, List.mem_cons, List.mem_append] at hm
  rcases hm with rfl | hm | rfl | hm
  · exact ho hsep
  · exact hg ⟨c, hm, hsep⟩
  · exact hc hsep
  · exact hs c hm hsep

theorem notSep_append {s t : List Char} (hs : ∀ c ∈ s, c ∉ sep) (ht : ∀ c ∈ t, c ∉ sep) :
    ∀ c ∈ s ++ t, c ∉ sep := by
  intro c hm
  exact (List.mem_append.mp hm).elim (hs c) (ht c)

theorem unbroken_text {p : List Char} (h : NoBracket p) (s : List Char) :
    unbroken sep false (p ++ s) ↔ (∀ c ∈ p, c ∉ sep) ∧ unbroken sep false s := by
  induction p with
  | nil => simp
  | cons c p ih =>
    have hc : bracketOpen false c = false := by
      have h1 : c ≠ '[' := fun hc => h.1 (by simp [hc])
      have h2 : c ≠ ']' := fun hc => h.2 (by simp [hc])
      rw [bracketOpen, if_neg h1, if_neg h2]
    have hp : NoBracket p :=
      ⟨fun hm => h.1 (List.mem_cons_of_mem _ hm), fun hm => h.2 (List.mem_cons_of_mem _ hm)⟩
    rw [List.cons_append, unbroken, hc, ih hp, List.forall_mem_cons, and_assoc]
    simp

theorem unbroken_group {g : List Char} (h : NoBracket g) {s : List Char}
    (hun : unbroken sep false (group g s)) : unbroken sep false s := by
  have hinside : ∀ g : List Char, NoBracket g →
      unbroken sep true (g ++ ']' :: s) → unbroken sep false s := by
    intro g
    induction g with
    | nil => exact fun _ h => h.2
    | cons c g ih =>
      intro h hun
      have hc : bracketOpen true c = true := by
        have h2 : c ≠ ']' := fun hc => h.2 (by simp [hc])
        by_cases h1 : c = '['
        · rw [bracketOpen, if_pos h1]
        · rw [bracketOpen, if_neg h1, if_neg h2]
      rw [List.cons_append, unbroken, hc] at hun
      exact ih ⟨fun hm => h.1 (List.mem_cons_of_mem _ hm),
        fun hm => h.2 (List.mem_cons_of_mem _ hm)⟩ hun.2
  exact hinside g h hun.2

/-- A text with a separator, cut in front of the first one. -/
theorem cut_sep {g : List Char} (h : ∃ c ∈ g, c ∈ sep) :
    ∃ b, g = g.takeWhile (!sep.contains ·) ++ b ∧ b ≠ [] ∧ (∀ s, StopsAt sep (b ++ s)) ∧
      ∀ c ∈ g.takeWhile (!sep.contains ·), c ∉ sep := by
  refine ⟨g.dropWhile (!sep.contains ·), List.takeWhile_append_dropWhile.symm, ?_, ?_, ?_⟩
  · intro hnil
    obtain ⟨c, hc, hsep⟩ := h
    have := List.dropWhile_eq_nil_iff.mp hnil c hc
    simp [hsep] at this
  · intro s c hc
    cases hb : g.dropWhile (!sep.contains ·) with
    | nil =>
      obtain ⟨d, hd, hsep⟩ := h
      have := List.dropWhile_eq_nil_iff.mp hb d hd
      simp [hsep] at this
    | cons d b =>
      rw [hb] at hc
      cases hc
      have := List.head?_dropWhile_not (!sep.contains ·) g
      rw [hb] at this
      simpa using this
  · intro c hc
    simpa using List.mem_takeWhile_imp hc

/-- Every closing bracket that comes first is preceded by an opening one. -/
def OpensFirst (s : List Char) : Prop := ∀ u v, s = u ++ ']' :: v → ']' ∉ u → '[' ∈ u

theorem OpensFirst.append {s t : List Char} (hs : ']' ∉ s) (ht : OpensFirst t) :
    OpensFirst (s ++ t) := by
  intro u v heq hu
  rcases List.append_eq_append_iff.mp heq with ⟨a, rfl, hta⟩ | ⟨a, rfl, hta⟩
  · have := ht a v hta (fun h => hu (List.mem_append_right _ h))
    exact List.mem_append_right _ this
  · cases a with
    | nil =>
      have := ht [] v (by simpa using hta.symm) (by simp)
      cases this
    | cons c a =>
      obtain ⟨rfl, -⟩ := List.cons.inj hta
      exact absurd (by simp) hs

theorem opensFirst_open {p : List Char} (hp : ']' ∉ p) (s : List Char) :
    OpensFirst (p ++ '[' :: s) := by
  apply OpensFirst.append hp
  intro u v heq hu
  cases u with
  | nil => cases heq
  | cons c u =>
    obtain ⟨rfl, -⟩ := List.cons.inj heq
    exact List.mem_cons_self

/-- In a text of such segments a closing bracket does not come first. -/
theorem opensFirst_of_segments (hc : ']' ∉ sep) : ∀ (n : Nat) (s : List Char), s.length ≤ n →
    (∀ T ∈ segments sep s, TwoGroups T) → OpensFirst s := by
  intro n
  induction n with
  | zero =>
    intro s hlen _ u v heq
    rw [heq, List.length_append, List.length_cons] at hlen
    omega
  | succ n ih =>
    intro s hlen hs
    rw [← segments_dropWhile] at hs
    rw [← List.takeWhile_append_dropWhile (p := (sep.contains ·)) (l := s)]
    apply OpensFirst.append
    · intro hm
      exact hc (by simpa using List.mem_takeWhile_imp hm)
    have hshort := (List.dropWhile_sublist (sep.contains ·) (l := s)).length_le
    have hstop := @dropWhile_stopsAt sep s
    generalize s.dropWhile (sep.contains ·) = t at hs hshort hstop ⊢
    by_cases ht : StopsAt sep t
    · rw [hstop ht]
      intro u v heq
      simp at heq
    · obtain ⟨T, rest, rfl, hne, -, -, hseg⟩ := segments_eq ht
      rw [hseg] at hs
      have hpos := List.length_pos_iff.mpr hne
      rw [List.length_append] at hshort
      cases hs T List.mem_cons_self with
      | none hp =>
        apply OpensFirst.append hp.2
        exact ih rest (by omega) fun T' hT' => hs T' (List.mem_cons_of_mem _ hT')
      | one hp hg hq =>
        rw [group, List.append_assoc, List.cons_append]
        exact opensFirst_open hp.2 _
      | two hp hg hq hh hr =>
        rw [group, List.append_assoc, List.cons_append]
        exact opensFirst_open hp.2 _

theorem OpensFirst.strchr {s v r : List Char} (h : OpensFirst s)
    (hv : strchr ']' s = some (v, r)) : v.contains '[' = true := by
  simpa using h v r (eq_of_strchr hv) (not_mem_of_strchr hv)

/-- A separator in the first group only: the token ends where its text ends. -/
theorem tokEnd_one (ho : '[' ∉ sep) {p g s rest : List Char} (hp : NoBracket p)
    (hg : NoBracket g) (hps : ∀ c ∈ p, c ∉ sep) (hgs : ∃ c ∈ g, c ∈ sep) (hss : ∀ c ∈ s, c ∉ sep)
    (hnul : nul ∉ p ++ group g s ++ rest) (hrest : StopsAt sep rest) (hopens : OpensFirst rest) :
    tokEnd sep (p ++ group g s ++ rest) = (p ++ group g s).length ∧
      tokPointers sep (p ++ group g s ++ rest) ≠ none := by
  obtain ⟨b, hgb, hbne, hbs, has⟩ := cut_sep hgs
  generalize g.takeWhile (!sep.contains ·) = a at hgb has
  subst hgb
  have ht : p ++ group (a ++ b) s ++ rest = (p ++ '[' :: a) ++ (b ++ ']' :: (s ++ rest)) := by
    simp [group]
  have hpa : ∀ c ∈ p ++ '[' :: a, c ∉ sep := by
    intro c hc
    rcases List.mem_append.mp hc with hc | hc
    · exact hps c hc
    · rcases List.mem_cons.mp hc with rfl | hc
      · exact ho
      · exact has c hc
  have ha : NoBracket a := ⟨fun h => hg.1 (by simp [h]), fun h => hg.2 (by simp [h])⟩
  have hb : NoBracket b := ⟨fun h => hg.1 (by simp [h]), fun h => hg.2 (by simp [h])⟩
  obtain ⟨hend, hptr⟩ := tokEnd_first ht hnul hp ha hb hpa (hbs _) hss hrest
  refine ⟨?_, hptr⟩
  have hlen : (p ++ '[' :: a).length + b.length + 1 + s.length =
      (p ++ group (a ++ b) s).length := by
    simp only [group, List.length_append, List.length_cons]
    omega
  rw [hend, ← hlen]
  split
  · cases hv : strchr ']' rest with
    | none => rfl
    | some vr => exact if_pos (hopens.strchr hv)
  · rfl

/-- A separator in both groups: the token goes on to the end of the second group
when the search finds its bracket, and else is cut in front of the separator. -/
theorem tokEnd_two (ho : '[' ∉ sep) {p g q c d r rest : List Char} {n : Nat}
    (hp : NoBracket p) (hg : NoBracket g) (hd : NoBracket d) (hps : ∀ x ∈ p, x ∉ sep)
    (hqs : ∀ x ∈ q, x ∉ sep) (hgs : ∃ x ∈ g, x ∈ sep) (hcs : ∀ x ∈ c, x ∉ sep)
    (hds : ∀ s, StopsAt sep (d ++ s)) (hn : (q ++ '[' :: c).length = n)
    (hnul : nul ∉ p ++ group g (q ++ group (c ++ d) r) ++ rest) :
    tokEnd sep (p ++ group g (q ++ group (c ++ d) r) ++ rest) =
        (if p.length < n ∧ n ≤ p.length + 1 + g.length then p ++ group g (q ++ group (c ++ d) [])
          else p ++ group g (q ++ '[' :: c)).length ∧
      tokPointers sep (p ++ group g (q ++ group (c ++ d) r) ++ rest) ≠ none := by
  obtain ⟨b, hgb, -, hbs, has⟩ := cut_sep hgs
  generalize g.takeWhile (!sep.contains ·) = a at hgb has
  have ha : NoBracket a := ⟨fun hm => hg.1 (by simp [hgb, hm]), fun hm => hg.2 (by simp [hgb, hm])⟩
  have hb : NoBracket b := ⟨fun hm => hg.1 (by simp [hgb, hm]), fun hm => hg.2 (by simp [hgb, hm])⟩
  have hpa : ∀ x ∈ p ++ '[' :: a, x ∉ sep := by
    intro x hx
    rcases List.mem_append.mp hx with hx | hx
    · exact hps x hx
    · rcases List.mem_cons.mp hx with rfl | hx
      · exact ho
      · exact has x hx
  have hqc : ∀ x ∈ q ++ '[' :: c, x ∉ sep := by
    intro x hx
    rcases List.mem_append.mp hx with hx | hx
    · exact hqs x hx
    · rcases List.mem_cons.mp hx with rfl | hx
      · exact ho
      · exact hcs x hx
  have ht : p ++ group g (q ++ group (c ++ d) r) ++ rest =
      (p ++ '[' :: a) ++ (b ++ ']' :: ((q ++ '[' :: c) ++ (d ++ ']' :: (r ++ rest)))) := by
    rw [hgb]
    simp [group]
  obtain ⟨hend, hptr⟩ := tokEnd_first ht hnul hp ha hb hpa (hbs _) hqc (hds _)
  refine ⟨?_, hptr⟩
  -- what the search for the second group finds
  have hopen : '[' ∈ (p ++ group g (q ++ group (c ++ d) r) ++ rest).take n ↔ p.length < n := by
    rw [group, List.append_assoc]
    exact mem_take_cons hp.1 _ n
  have hclose : ']' ∈ (p ++ group g (q ++ group (c ++ d) r) ++ rest).take n ↔
      p.length + 1 + g.length < n := by
    have hpg : ']' ∉ p ++ '[' :: g := by
      simp only [List.mem_append, List.mem_cons, not_or]
      exact ⟨hp.2, by decide, hg.2⟩
    have hsplit : p ++ group g (q ++ group (c ++ d) r) ++ rest =
        (p ++ '[' :: g) ++ ']' :: (q ++ group (c ++ d) r ++ rest) := by simp [group]
    rw [hsplit, mem_take_cons hpg, List.length_append, List.length_cons]
    omega
  have hif : (decide (d ++ ']' :: (r ++ rest) ≠ []) &&
      ((p ++ group g (q ++ group (c ++ d) r) ++ rest).take n).contains '[' &&
      !((p ++ group g (q ++ group (c ++ d) r) ++ rest).take n).contains ']') = true ↔
        p.length < n ∧ n ≤ p.length + 1 + g.length := by
    simp only [Bool.and_eq_true, decide_eq_true_eq, List.contains_iff_mem, Bool.not_eq_true',
      Bool.eq_false_iff, ne_eq, hopen, hclose]
    simp
  have hlen : (p ++ '[' :: a).length + b.length + 1 + n =
      (p ++ group g (q ++ '[' :: c)).length := by
    simp only [hgb, ← hn, group, List.length_append, List.length_cons]
    omega
  rw [hend, hn, strchr_append hd.2, hlen]
  by_cases hfind : p.length < n ∧ n ≤ p.length + 1 + g.length
  · rw [if_pos hfind, if_pos (hif.mpr hfind)]
    have hd1 : d.contains '[' = false := by simp [hd.1]
    simp only [hd1, Bool.false_eq_true, if_false, group, List.length_append, List.length_cons,
      List.length_nil]
    omega
  · rw [if_neg hfind, if_neg (fun h => hfind (hif.mp h))]

/-- Where `_next_tok` ends a token with at most two groups: at its end, or before
it when the second group is missed or has text behind it. -/
theorem tokEnd_token (ho : '[' ∉ sep) (hc : ']' ∉ sep) {T rest : List Char} (hT : TwoGroups T)
    (hun : unbroken sep false T) (hnul : nul ∉ T ++ rest) (hrest : StopsAt sep rest)
    (hopens : OpensFirst rest) :
    tokPointers sep (T ++ rest) ≠ none ∧
      (Uncut sep T → tokEnd sep (T ++ rest) = T.length) ∧
      (¬ Uncut sep T → ∃ T1 T2, T = T1 ++ T2 ∧ T1 ≠ [] ∧ T2 ≠ [] ∧
        tokEnd sep (T ++ rest) = T1.length) := by
  have hnulT : nul ∉ T := fun h => hnul (List.mem_append_left _ h)
  cases hT with
  | none hp =>
    have hps := ((unbroken_text hp []).mp (by simpa using hun)).1
    obtain ⟨hend, hptr⟩ := tokEnd_scan hps hnulT hrest (fun h => absurd h hp.1)
    refine ⟨by rw [hptr]; simp, fun _ => hend, fun h => absurd ?_ h⟩
    simp [Uncut, cutGroup_none hp]
  | @one p g q hp hg hq =>
    obtain ⟨hps, hun⟩ := (unbroken_text hp _).mp hun
    have hqs := ((unbroken_text hq []).mp (by simpa using unbroken_group hg hun)).1
    have huncut : Uncut sep (p ++ group g q) := by
      simp [Uncut, cutGroup_group hp hg, cutGroup_none hq]
    by_cases hgs : ∃ c ∈ g, c ∈ sep
    · obtain ⟨hend, hptr⟩ := tokEnd_one ho hp hg hps hgs hqs hnul hrest hopens
      exact ⟨hptr, fun _ => hend, fun h => absurd huncut h⟩
    · have hall := notSep_append hps (notSep_group ho hc hgs hqs)
      obtain ⟨hend, hptr⟩ := tokEnd_scan hall hnulT hrest (fun _ => by simp [group])
      exact ⟨by rw [hptr]; simp, fun _ => hend, fun h => absurd huncut h⟩
  | @two p g q h r hp hg hq hh hr =>
    obtain ⟨hps, hun⟩ := (unbroken_text hp _).mp hun
    obtain ⟨hqs, hun⟩ := (unbroken_text hq _).mp (unbroken_group hg hun)
    have hrs := ((unbroken_text hr []).mp (by simpa using unbroken_group hh hun)).1
    have huncut : Uncut sep (p ++ group g (q ++ group h r)) ↔ ((∃ c ∈ h, c ∈ sep) →
        (∃ c ∈ g, c ∈ sep) ∧ r = [] ∧
          p.length < q.length + 1 + (h.takeWhile (!sep.contains ·)).length ∧
          q.length + 1 + (h.takeWhile (!sep.contains ·)).length ≤ p.length + 1 + g.length) := by
      simp only [Uncut, cutGroup_group hp hg, cutGroup_group hq hh]
    by_cases hhs : ∃ c ∈ h, c ∈ sep
    · obtain ⟨d, hhd, hdne, hds, hcs⟩ := cut_sep hhs
      generalize h.takeWhile (!sep.contains ·) = c at hhd hcs huncut
      subst hhd
      have hd : NoBracket d := ⟨fun hm => hh.1 (by simp [hm]), fun hm => hh.2 (by simp [hm])⟩
      -- the token cut in front of the separator in its second group
      have hcut : p ++ group g (q ++ group (c ++ d) r) =
          (p ++ group g (q ++ '[' :: c)) ++ (d ++ ']' :: r) := by simp [group]
      by_cases hgs : ∃ c ∈ g, c ∈ sep
      · obtain ⟨hend, hptr⟩ := tokEnd_two ho (r := r) hp hg hd hps hqs hgs hcs hds rfl hnul
        have hn : (q ++ '[' :: c).length = q.length + 1 + c.length := by
          simp only [List.length_append, List.length_cons]
          omega
        rw [hn] at hend
        refine ⟨hptr, fun hu => ?_, fun hu => ?_⟩
        · obtain ⟨-, rfl, hfind⟩ := huncut.mp hu hhs
          rw [hend, if_pos hfind]
        · by_cases hfind : p.length < q.length + 1 + c.length ∧
              q.length + 1 + c.length ≤ p.length + 1 + g.length
          · rw [if_pos hfind] at hend
            refine ⟨_, r, ?_, ?_, ?_, hend⟩
            · simp [group]
            · simp [group]
            · rintro rfl
              exact hu (huncut.mpr fun _ => ⟨hgs, rfl, hfind⟩)
          · rw [if_neg hfind] at hend
            exact ⟨_, _, hcut, by simp [group], by simp, hend⟩
      · -- the scan goes past the first group and stops inside the second
        have hall : ∀ x ∈ p ++ group g (q ++ '[' :: c), x ∉ sep := by
          apply notSep_append hps (notSep_group ho hc hgs (notSep_append hqs ?_))
          intro x hx
          rcases List.mem_cons.mp hx with rfl | hx
          · exact ho
          · exact hcs x hx
        have hstop : StopsAt sep (d ++ ']' :: r ++ rest) := by
          rw [List.append_assoc]
          exact hds _
        obtain ⟨hend, hptr⟩ := tokEnd_scan hall
          (fun hm => hnulT (by rw [hcut]; exact List.mem_append_left _ hm)) hstop
          (fun _ => by simp [group])
        rw [← List.append_assoc, ← hcut] at hend hptr
        refine ⟨by rw [hptr]; simp, fun hu => absurd (huncut.mp hu hhs).1 hgs, fun _ => ?_⟩
        exact ⟨_, _, hcut, by simp [group], by simp, hend⟩
    · have hu : Uncut sep (p ++ group g (q ++ group h r)) :=
        huncut.mpr fun hs => absurd hs hhs
      have hqhr := notSep_append hqs (notSep_group ho hc hhs hrs)
      by_cases hgs : ∃ c ∈ g, c ∈ sep
      · obtain ⟨hend, hptr⟩ := tokEnd_one ho hp hg hps hgs hqhr hnul hrest hopens
        exact ⟨hptr, fun _ => hend, fun h => absurd hu h⟩
      · have hall := notSep_append hps (notSep_group ho hc hgs hqhr)
        obtain ⟨hend, hptr⟩ := tokEnd_scan hall hnulT hrest (fun _ => by simp [group])
        exact ⟨by rw [hptr]; simp, fun _ => hend, fun h => absurd hu h⟩

/-! ## One call -/

theorem scanTok_le (t : List Char) : scanTok sep t ≤ t.length :=
  (List.takeWhile_sublist _).length_le

theorem strchr_cstr_lt {c : Char} {t u v : List Char} {n : Nat}
    (h : strchr c (cstr (t.drop n)) = some (u, v)) : n + u.length + 1 ≤ t.length := by
  have hlen := congrArg List.length (eq_of_strchr h)
  have hle : (cstr (t.drop n)).length ≤ (t.drop n).length :=
    (List.takeWhile_sublist _).length_le
  rw [List.length_append, List.length_cons] at hlen
  rw [List.length_drop] at hle
  omega

/-- Whatever the text, the offsets are inside it when the lengths are in order. -/
theorem tokPointers_le {t : List Char} {ps : List Nat} (h : tokPointers sep t = some ps) :
    ∀ p ∈ ps, p ≤ t.length := by
  have he := @scanTok_le sep t
  unfold tokPointers at h
  simp only at h
  split at h
  · split at h
    · split at h
      · obtain rfl := Option.some.inj h
        simpa using he
      · cases h
    next u v hu =>
      have hu := strchr_cstr_lt hu
      split at h
      · cases h
      · have hscan := @scanTok_le sep (t.drop (scanTok sep t + u.length + 1))
        rw [List.length_drop] at hscan
        split at h
        · split at h
          · obtain rfl := Option.some.inj h
            simp only [List.forall_mem_cons, List.not_mem_nil, false_imp_iff, implies_true,
              and_true]
            omega
          next w x hw =>
            have hw := strchr_cstr_lt hw
            obtain rfl := Option.some.inj h
            simp only [List.forall_mem_cons, List.not_mem_nil, false_imp_iff, implies_true,
              and_true]
            omega
        · obtain rfl := Option.some.inj h
          simp only [List.forall_mem_cons, List.not_mem_nil, false_imp_iff, implies_true, and_true]
          omega
  · obtain rfl := Option.some.inj h
    simpa using he

/-- What a call yields when the token it finds ends behind `T`: up to the next NUL
that is `T` where separators follow, and the rest of the text where none do. -/
theorem nextTok_yields {s T rest : List Char} (hs : s.dropWhile (sep.contains ·) = T ++ rest)
    (hT : T ≠ []) (hnul : nul ∉ T ++ rest) (hend : tokEnd sep (T ++ rest) = T.length) :
    ∃ buf k, nextTok sep s = some (buf, k) ∧ k ≤ (T ++ rest).length ∧
      (StopsAt sep rest → cstr buf = T) ∧ (¬ StopsAt sep rest → cstr buf = T ++ rest) ∧
      buf.drop k = rest.dropWhile (sep.contains ·) := by
  have hnulT : nul ∉ T := fun h => hnul (List.mem_append_left _ h)
  have hlen : ∀ l : List Char, l.drop (l.takeWhile (sep.contains ·)).length =
      l.dropWhile (sep.contains ·) := by
    intro l
    have hl := @List.drop_left _ (l.takeWhile (sep.contains ·)) (l.dropWhile (sep.contains ·))
    rwa [List.takeWhile_append_dropWhile] at hl
  have hle : (rest.takeWhile (sep.contains ·)).length ≤ rest.length :=
    (List.takeWhile_sublist _).length_le
  have hdrop : (T ++ rest).drop (T.length + (rest.takeWhile (sep.contains ·)).length) =
      rest.dropWhile (sep.contains ·) := by
    rw [← List.drop_drop, List.drop_left, hlen]
  have hcall : nextTok sep s =
      some (T ++ List.replicate (rest.takeWhile (sep.contains ·)).length nul ++
          rest.dropWhile (sep.contains ·),
        T.length + (rest.takeWhile (sep.contains ·)).length) := by
    unfold nextTok
    dsimp only
    rw [hs, cstr_of_not_mem hnul, if_neg (by simp [hT]), hend, List.drop_left, List.take_left,
      hdrop, Nat.add_sub_cancel_left]
  refine ⟨_, _, hcall, ?_, ?_, ?_, ?_⟩
  · rw [List.length_append]
    omega
  · intro hstop
    cases rest with
    | nil => simpa using cstr_of_not_mem hnulT
    | cons c rest =>
      have hc : c ∈ sep := hstop c rfl
      rw [List.takeWhile_cons_of_pos (by simpa using hc), List.length_cons,
        List.replicate_succ, List.append_assoc, cstr_append _ hnulT]
      simp [cstr]
  · intro hgo
    cases rest with
    | nil => exact absurd (by simp [StopsAt]) hgo
    | cons c rest =>
      have hc : c ∉ sep := fun hc => hgo fun d hd => by cases hd; exact hc
      rw [List.takeWhile_cons_of_neg (by simpa using hc),
        List.dropWhile_cons_of_neg (by simpa using hc)]
      simpa using cstr_of_not_mem hnul
  · have hsize : (T ++ List.replicate (rest.takeWhile (sep.contains ·)).length nul).length =
        T.length + (rest.takeWhile (sep.contains ·)).length := by simp
    rw [← hsize, List.drop_left]

theorem nextTok_nil {s : List Char} (hs : s.dropWhile (sep.contains ·) = []) :
    nextTok sep s = none := by
  unfold nextTok
  rw [hs]
  rfl

/-- A text that starts with no separator has a token. -/
theorem tokenLoop_ne_nil {t : List Char} (ht : ¬ StopsAt sep t) (hnul : nul ∉ t) {fuel : Nat}
    (hfuel : t.length < fuel) : tokenLoop sep fuel t ≠ [] := by
  cases fuel with
  | zero => omega
  | succ fuel =>
    have hne : t ≠ [] := by
      rintro rfl
      exact ht (by simp [StopsAt])
    rw [tokenLoop, nextTok]
    dsimp only
    rw [dropWhile_eq_self ht, cstr_of_not_mem hnul, if_neg hne]
    exact List.cons_ne_nil _ _

/-! ## All calls -/

/-- The induction over the calls: as long as the tokens are kept, each call yields
the next segment and leaves the text behind it. -/
theorem tokenLoop_iff (ho : '[' ∉ sep) (hc : ']' ∉ sep) :
    ∀ (fuel : Nat) (s : List Char), s.length < fuel → nul ∉ s →
    (∀ T ∈ segments sep s, TwoGroups T) →
    (tokenLoop sep fuel s = segments sep s ∧ pointersLoop sep fuel s ↔
      ∀ T ∈ segments sep s, Uncut sep T) := by
  intro fuel
  induction fuel with
  | zero => exact fun s hlen => absurd hlen (by omega)
  | succ fuel ih =>
    intro s hlen hnul hs
    have hshort := (List.dropWhile_sublist (sep.contains ·) (l := s)).length_le
    have hstop := @dropWhile_stopsAt sep s
    have hnult : nul ∉ s.dropWhile (sep.contains ·) := fun h =>
      hnul ((List.dropWhile_sublist _).subset h)
    rw [← segments_dropWhile] at hs ⊢
    rw [tokenLoop, pointersLoop]
    by_cases ht : StopsAt sep (s.dropWhile (sep.contains ·))
    · rw [nextTok_nil (hstop ht), hstop ht]
      simp [segments_nil]
    obtain ⟨T, rest, hsplit, hne, hrest, hun, hseg⟩ := segments_eq ht
    rw [hseg] at hs ⊢
    rw [hsplit] at hnult hshort
    have hpos := List.length_pos_iff.mpr hne
    rw [List.length_append] at hshort
    have hrestok : ∀ T' ∈ segments sep rest, TwoGroups T' := fun T' h =>
      hs T' (List.mem_cons_of_mem _ h)
    -- in what is left a bracket is opened before one is closed
    have hopens := opensFirst_of_segments hc rest.length rest (Nat.le_refl _) hrestok
    obtain ⟨hptr, hend, hcut⟩ :=
      tokEnd_token ho hc (hs T List.mem_cons_self) hun hnult hrest hopens
    rw [List.forall_mem_cons]
    by_cases hu : Uncut sep T
    · obtain ⟨buf, k, hcall, hk, hyield, -, hnext⟩ :=
        nextTok_yields hsplit hne hnult (hend hu)
      have hnulrest : nul ∉ rest.dropWhile (sep.contains ·) := fun h =>
        hnult (List.mem_append_right _ ((List.dropWhile_sublist _).subset h))
      have hshort' := (List.dropWhile_sublist (sep.contains ·) (l := rest)).length_le
      have hrec := ih (rest.dropWhile (sep.contains ·)) (by omega) hnulrest
        (by rw [segments_dropWhile]; exact hrestok)
      rw [segments_dropWhile] at hrec
      obtain ⟨ps, hps⟩ := Option.ne_none_iff_exists'.mp hptr
      have hin : ∃ ps, tokPointers sep (T ++ rest) = some ps ∧
          ∀ p ∈ k :: ps, p ≤ (T ++ rest).length :=
        ⟨ps, hps, List.forall_mem_cons.mpr ⟨hk, tokPointers_le hps⟩⟩
      rw [hcall]
      simp only [hyield hrest, hnext, hsplit, List.cons.injEq, true_and]
      rw [← hrec]
      exact ⟨fun h => ⟨hu, h.1, h.2.2⟩, fun h => ⟨h.2.1, hin, h.2.2⟩⟩
    -- within a second group a separator is met, and the token ends there
    · obtain ⟨T1, T2, hTT, hT1, hT2, hend⟩ := hcut hu
      have hsplit' : s.dropWhile (sep.contains ·) = T1 ++ (T2 ++ rest) := by
        rw [hsplit, hTT, List.append_assoc]
      rw [hTT, List.append_assoc] at hend hnult
      obtain ⟨buf, k, hcall, -, hyield, hyield', hnext⟩ :=
        nextTok_yields hsplit' hT1 hnult hend
      constructor
      · rintro ⟨htok, -⟩
        exfalso
        rw [hcall] at htok
        obtain ⟨hhead, htail⟩ := List.cons.inj htok
        by_cases hgo : StopsAt sep (T2 ++ rest)
        · -- the token is cut, so what is yielded is too short
          rw [hyield hgo] at hhead
          exact hT2 (by simpa [hhead] using hTT)
        · -- text behind the second group is yielded once more
          rw [hyield' hgo, ← List.append_assoc, ← hTT] at hhead
          have hnil : rest = [] := by simpa using hhead
          subst hnil
          rw [List.append_nil] at hgo
          rw [hnext, List.append_nil, segments_nil, dropWhile_eq_self hgo] at htail
          refine tokenLoop_ne_nil hgo (fun h => hnult (by simp [h])) ?_ htail
          have hpos1 := List.length_pos_iff.mpr hT1
          rw [hTT, List.length_append] at hshort
          omega
      · exact fun h => absurd h.1 hu

/-- For every text whose tokens have at most two groups, the calls yield the
segments between the separators outside brackets, through pointers into the
text, exactly when every token is kept whole. -/
theorem tokens_iff (ho : '[' ∉ sep) (hc : ']' ∉ sep) {s : List Char} (hnul : nul ∉ s)
    (hs : ∀ T ∈ segments sep s, TwoGroups T) :
    tokens sep s = segments sep s ∧ PointersInside sep s ↔ ∀ T ∈ segments sep s, Uncut sep T :=
  tokenLoop_iff ho hc _ s (Nat.lt_succ_self _) hnul hs

end

/-- Two groups with separators, with a name of one letter and one between them. -/
theorem tokens_twoGroups :
    tokens separators "a[1,2]b[3,4],c".toList = ["a[1,2]b[3,4]".toList, ['c']] ∧
      PointersInside separators "a[1,2]b[3,4],c".toList := by
  have hseg : segments separators "a[1,2]b[3,4],c".toList =
      [['a'] ++ group "1,2".toList (['b'] ++ group "3,4".toList []), ['c']] := by decide
  have h := (tokens_iff (show '[' ∉ separators by decide) (by decide)
    (s := "a[1,2]b[3,4],c".toList) (by decide) ?_).mpr ?_
  · rw [hseg] at h
    exact h
  · rw [hseg]
    intro T hT
    simp only [List.mem_cons, List.not_mem_nil, or_false] at hT
    rcases hT with rfl | rfl
    · exact .two (by decide) (by decide) (by decide) (by decide) (by decide)
    · exact .none (by decide)
  · rw [hseg]
    intro T hT
    simp only [List.mem_cons, List.not_mem_nil, or_false] at hT
    rcases hT with rfl | rfl
    · simp only [Uncut, cutGroup_group (show NoBracket ['a'] by decide)
        (show NoBracket "1,2".toList by decide), cutGroup_group (show NoBracket ['b'] by decide)
        (show NoBracket "3,4".toList by decide)]
      exact fun _ => ⟨⟨',', by decide, by decide⟩, trivial, by decide, by decide⟩
    · simp [Uncut, cutGroup_none (show NoBracket ['c'] by decide)]

/-- A second group is cut at its comma when the first one has none. -/
theorem not_tokens_segments :
    ¬ ∀ s : List Char, nul ∉ s → (∀ T ∈ segments separators s, TwoGroups T) →
      tokens separators s = segments separators s ∧ PointersInside separators s := by
  intro h
  have hseg : segments separators "a[1]b[2,3]".toList =
      [['a'] ++ group ['1'] (['b'] ++ group "2,3".toList [])] := by decide
  have htok : tokens separators "a[1]b[2,3]".toList = ["a[1]b[2".toList, "3]".toList] := by
    decide
  have heq := (h "a[1]b[2,3]".toList (by decide) ?_).1
  · rw [hseg, htok] at heq
    exact absurd heq (by decide)
  · rw [hseg]
    intro T hT
    rw [List.mem_singleton.mp hT]
    exact .two (by decide) (by decide) (by decide) (by decide) (by decide)

end Slurm.Hosts
