import Mathlib

/-!
# Lists of quoted values

How a value list of a query is read: texts in single quotes and the word NULL, between commas,
up to the closing parenthesis. In a text a doubled quote is one quote and a backslash
takes the next character along; `\%` and `\_` stay as they are. Texts that stand next to each
other are joined.

* **One text** (`readText_spec`): what is read takes as many commas and parentheses as it has,
  and more quotes and backslashes than it has, by one only where it is clean.
* **Quoting** (`readText_quoted_iff`): a text that was put between quotes as it is reads back
  exactly when it is clean.
* **Lists** (`readList_quoted_iff`): the same for all of a list.
-/

namespace Base.SqlValues

/-- The place of the reader: in a text, after a backslash, after a quote, between texts. -/
inductive Mode where
  | text
  | escape
  | quote
  | between
deriving DecidableEq

/-- The characters that a backslash and `c` stand for. -/
def unescape (c : Char) : List Char :=
  if c = '0' then [Char.ofNat 0]
  else if c = 'b' then [Char.ofNat 8]
  else if c = 't' then ['\t']
  else if c = 'n' then ['\n']
  else if c = 'r' then ['\r']
  else if c = 'Z' then [Char.ofNat 26]
  else if c = '%' ∨ c = '_' then ['\\', c]
  else [c]

def isSpace (c : Char) : Bool := c = ' ' ∨ c = '\t' ∨ c = '\n' ∨ c = '\r'

/-- What a value ends before. -/
def isEnd (c : Char) : Bool := c = ',' ∨ c = ')'

/-- A text, and what is left from the comma or the parenthesis on. -/
def readText : Mode → List Char → Option (List Char × List Char)
  | _, [] => none
  | .text, c :: s =>
    if c = '\\' then readText .escape s
    else if c = '\'' then readText .quote s
    else (readText .text s).map fun r => (c :: r.1, r.2)
  | .escape, c :: s => (readText .text s).map fun r => (unescape c ++ r.1, r.2)
  | .quote, c :: s =>
    if c = '\'' then (readText .text s).map fun r => ('\'' :: r.1, r.2)
    else if isSpace c then readText .between s
    else if isEnd c then some ([], c :: s)
    else none
  | .between, c :: s =>
    if c = '\'' then readText .text s
    else if isSpace c then readText .between s
    else if isEnd c then some ([], c :: s)
    else none

/-- A value, `none` for NULL. -/
def readValue (s : List Char) : Option (Option (List Char) × List Char) :=
  match s.dropWhile isSpace with
  | '\'' :: s => (readText .text s).map fun r => (some r.1, r.2)
  | 'N' :: 'U' :: 'L' :: 'L' :: s =>
    match s.dropWhile isSpace with
    | c :: s => if isEnd c then some (none, c :: s) else none
    | [] => none
  | _ => none

/-- The values up to the parenthesis, and what is left after it. -/
def readValues : Nat → List Char → Option (List (Option (List Char)) × List Char)
  | 0, _ => none
  | fuel + 1, s =>
    match readValue s with
    | some (v, ')' :: s) => some ([v], s)
    | some (v, ',' :: s) => (readValues fuel s).map fun r => (v :: r.1, r.2)
    | _ => none

/-- A value list; every value takes a character at least. -/
def readList : List Char → Option (List (Option (List Char)) × List Char)
  | '(' :: s => readValues s.length s
  | _ => none

/-- A text that stands for itself between quotes. -/
def Clean : List Char → Prop
  | [] => True
  | '\\' :: c :: t => (c = '%' ∨ c = '_') ∧ Clean t
  | c :: t => c ≠ '\'' ∧ c ≠ '\\' ∧ Clean t

/-! ## Weights -/

/-- The quotes and backslashes of a text. -/
def weight (t : List Char) : Nat := t.countP fun c => c = '\'' ∨ c = '\\'

theorem weight_cons (c : Char) (t : List Char) :
    weight (c :: t) = weight t + if c = '\'' ∨ c = '\\' then 1 else 0 := by
  rw [weight, List.countP_cons, weight]
  simp only [decide_eq_true_eq]

theorem weight_append (t u : List Char) : weight (t ++ u) = weight t + weight u :=
  List.countP_append

theorem count_of_not_end {c d : Char} (hc : isEnd c = false) (hd : isEnd d = true) :
    [c].count d = 0 := by
  apply List.count_eq_zero_of_not_mem
  intro hmem
  rw [List.mem_singleton.mp hmem, hc] at hd
  cases hd

/-- Two characters stay as they are; for any other one character is read, which is no quote,
backslash, comma or parenthesis unless it is the one taken along. -/
theorem unescape_cases (c : Char) :
    ((c = '%' ∨ c = '_') ∧ unescape c = ['\\', c]) ∨
      ∃ e, unescape c = [e] ∧ weight [e] ≤ weight [c] ∧
        ∀ d, isEnd d = true → [e].count d = [c].count d := by
  have hletter : ∀ e : Char, isEnd c = false → isEnd e = false → weight [e] = 0 →
      unescape c = [e] → ∃ e, unescape c = [e] ∧ weight [e] ≤ weight [c] ∧
        ∀ d, isEnd d = true → [e].count d = [c].count d := by
    intro e hc he hweight hread
    refine ⟨e, hread, by omega, ?_⟩
    intro d hd
    rw [count_of_not_end hc hd, count_of_not_end he hd]
  by_cases h0 : c = '0'
  · subst h0
    exact Or.inr (hletter _ (by decide) (by decide) (by decide) rfl)
  by_cases hb : c = 'b'
  · subst hb
    exact Or.inr (hletter _ (by decide) (by decide) (by decide) rfl)
  by_cases ht : c = 't'
  · subst ht
    exact Or.inr (hletter _ (by decide) (by decide) (by decide) rfl)
  by_cases hn : c = 'n'
  · subst hn
    exact Or.inr (hletter _ (by decide) (by decide) (by decide) rfl)
  by_cases hr : c = 'r'
  · subst hr
    exact Or.inr (hletter _ (by decide) (by decide) (by decide) rfl)
  by_cases hz : c = 'Z'
  · subst hz
    exact Or.inr (hletter _ (by decide) (by decide) (by decide) rfl)
  by_cases hkept : c = '%' ∨ c = '_'
  · left
    refine ⟨hkept, ?_⟩
    rcases hkept with rfl | rfl
    · rfl
    · rfl
  · right
    refine ⟨c, ?_, Nat.le_refl _, fun _ _ => rfl⟩
    rw [unescape, if_neg h0, if_neg hb, if_neg ht, if_neg hn, if_neg hr, if_neg hz, if_neg hkept]

theorem weight_unescape_le (c : Char) : weight (unescape c) ≤ weight [c] + 1 := by
  rcases unescape_cases c with ⟨-, hread⟩ | ⟨e, hread, hle, -⟩
  · rw [hread, weight_cons]
    simp
  · rw [hread]
    omega

theorem kept_of_weight {c : Char} (h : weight (unescape c) = weight [c] + 1) :
    (c = '%' ∨ c = '_') ∧ unescape c = ['\\', c] := by
  rcases unescape_cases c with hkept | ⟨e, hread, hle, -⟩
  · exact hkept
  · rw [hread] at h
    omega

theorem count_unescape (c : Char) {d : Char} (hd : isEnd d = true) :
    (unescape c).count d = [c].count d := by
  rcases unescape_cases c with ⟨-, hread⟩ | ⟨e, hread, -, hcount⟩
  · rw [hread, List.count_cons, if_neg, Nat.add_zero]
    rcases (by simpa [isEnd] using hd : d = ',' ∨ d = ')') with rfl | rfl
    · decide
    · decide
  · rw [hread, hcount d hd]

/-! ## One text -/

/-- The quotes and backslashes still to come for the text read so far. -/
def Mode.owes : Mode → Nat
  | .text => 1
  | _ => 0

/-- What is read as a text `v` takes up. -/
structure Takes (m : Mode) (used v : List Char) : Prop where
  counts : ∀ d, isEnd d = true → used.count d = v.count d
  weights : weight v + m.owes ≤ weight used
  clean : weight v + m.owes = weight used → Clean v

theorem clean_cons {c : Char} {t : List Char} (hquote : c ≠ '\'') (hback : c ≠ '\\') :
    Clean (c :: t) ↔ Clean t := by
  rw [Clean.eq_3]
  · exact ⟨fun h => h.2.2, fun h => ⟨hquote, hback, h⟩⟩
  · intro c' t' heq
    exact absurd heq hback

/-- A text without quotes and backslashes stands for itself. -/
theorem clean_of_plain {t : List Char} (h : ∀ c ∈ t, c ≠ '\'' ∧ c ≠ '\\') : Clean t := by
  induction t with
  | nil => trivial
  | cons c t ih =>
    rcases h c List.mem_cons_self with ⟨hquote, hback⟩
    rw [clean_cons hquote hback]
    exact ih fun d hd => h d (List.mem_cons_of_mem _ hd)

theorem count_cons_of_not_end {c d : Char} (t : List Char) (hc : isEnd c = false)
    (hd : isEnd d = true) : (c :: t).count d = t.count d := by
  rw [← List.singleton_append, List.count_append, count_of_not_end hc hd, Nat.zero_add]

theorem takes_nil {m : Mode} (hm : m.owes = 0) : Takes m [] [] :=
  ⟨fun _ _ => rfl, by rw [hm]; exact Nat.le_refl _, fun _ => trivial⟩

namespace Takes

variable {m : Mode} {used v : List Char} {c : Char}

theorem plain (h : Takes .text used v) (hquote : c ≠ '\'') (hback : c ≠ '\\') :
    Takes .text (c :: used) (c :: v) := by
  have hle := h.weights
  have hc : ¬(c = '\'' ∨ c = '\\') := by
    rintro (hc | hc)
    · exact hquote hc
    · exact hback hc
  refine ⟨?_, ?_, ?_⟩
  · intro d hd
    rw [List.count_cons, List.count_cons, h.counts d hd]
  · rw [weight_cons, weight_cons, if_neg hc]
    exact hle
  · rw [weight_cons, weight_cons, if_neg hc, clean_cons hquote hback]
    exact h.clean

/-- A quote or a backslash pays what the text owes. -/
theorem special (h : Takes m used v) (hm : m.owes = 0) (hc : c = '\'' ∨ c = '\\') :
    Takes .text (c :: used) v := by
  have hend : isEnd c = false := by
    rcases hc with rfl | rfl
    · decide
    · decide
  have hle := h.weights
  rw [hm, Nat.add_zero] at hle
  refine ⟨?_, ?_, ?_⟩
  · intro d hd
    rw [count_cons_of_not_end _ hend hd, h.counts d hd]
  · rw [weight_cons, if_pos hc]
    exact Nat.succ_le_succ hle
  · rw [weight_cons, if_pos hc]
    intro heq
    apply h.clean
    rw [hm, Nat.add_zero]
    exact Nat.succ_injective heq

theorem escaped (h : Takes .text used v) : Takes .escape (c :: used) (unescape c ++ v) := by
  have hle : weight v + 1 ≤ weight used := h.weights
  have hread := weight_unescape_le c
  have hused : weight (c :: used) = weight [c] + weight used := by
    rw [← List.singleton_append, weight_append]
  refine ⟨?_, ?_, ?_⟩
  · intro d hd
    rw [List.count_append, count_unescape c hd, ← h.counts d hd, ← List.singleton_append,
      List.count_append]
  · show weight (unescape c ++ v) + 0 ≤ weight (c :: used)
    rw [weight_append]
    omega
  · show weight (unescape c ++ v) + 0 = weight (c :: used) → Clean (unescape c ++ v)
    rw [weight_append]
    intro heq
    rcases kept_of_weight (c := c) (by omega) with ⟨hkept, hlist⟩
    rw [hlist]
    refine ⟨hkept, h.clean ?_⟩
    show weight v + 1 = weight used
    omega

/-- A doubled quote, which takes one more than it gives. -/
theorem doubled (h : Takes .text used v) : Takes .quote ('\'' :: used) ('\'' :: v) := by
  have hle : weight v + 1 ≤ weight used := h.weights
  refine ⟨?_, ?_, ?_⟩
  · intro d hd
    rw [List.count_cons, List.count_cons, h.counts d hd]
  · rw [weight_cons, weight_cons]
    exact Nat.add_le_add_right (Nat.le_of_succ_le hle) _
  · rw [weight_cons, weight_cons]
    intro heq
    have hsame : weight v + 1 + 0 = weight used + 1 := heq
    omega

theorem space (h : Takes .between used v) (hm : m.owes = 0) (hc : isSpace c = true) :
    Takes m (c :: used) v := by
  have hplain : isEnd c = false ∧ ¬(c = '\'' ∨ c = '\\') := by
    rcases (by simpa [isSpace] using hc : c = ' ' ∨ c = '\t' ∨ c = '\n' ∨ c = '\r') with
      rfl | rfl | rfl | rfl
    · decide
    · decide
    · decide
    · decide
  refine ⟨?_, ?_, ?_⟩
  · intro d hd
    rw [count_cons_of_not_end _ hplain.1 hd, h.counts d hd]
  · rw [weight_cons, if_neg hplain.2, hm]
    exact h.weights
  · rw [weight_cons, if_neg hplain.2, hm]
    exact h.clean

/-- The quote that opens a further text. -/
theorem joined (h : Takes .text used v) : Takes .between ('\'' :: used) v := by
  have hle : weight v + 1 ≤ weight used := h.weights
  refine ⟨?_, ?_, ?_⟩
  · intro d hd
    rw [count_cons_of_not_end _ (by decide) hd, h.counts d hd]
  · rw [weight_cons]
    exact (Nat.le_of_succ_le hle).trans (Nat.le_add_right _ _)
  · rw [weight_cons]
    intro heq
    have hsame : weight v + 0 = weight used + 1 := heq
    omega

end Takes

/-- What is read takes what it takes, up to a comma or a parenthesis. -/
theorem readText_spec {m : Mode} {s v rest : List Char} (h : readText m s = some (v, rest)) :
    ∃ used d r, s = used ++ d :: r ∧ rest = d :: r ∧ isEnd d = true ∧ Takes m used v := by
  have hnext : ∀ {t v rest : List Char} {f : List Char → List Char},
      ((readText .text t).map fun r => (f r.1, r.2)) = some (v, rest) →
        ∃ v', readText .text t = some (v', rest) ∧ v = f v' := by
    intro t v rest f h
    rcases Option.map_eq_some_iff.mp h with ⟨⟨v', rest'⟩, hread, heq⟩
    cases heq
    exact ⟨v', hread, rfl⟩
  induction s generalizing m v with
  | nil =>
    cases m <;> cases h
  | cons c s ih =>
    cases m with
    | text =>
      rw [readText] at h
      split at h
      · rename_i hc
        rcases ih h with ⟨used, d, r, rfl, hrest, hd, htakes⟩
        exact ⟨c :: used, d, r, rfl, hrest, hd, htakes.special rfl (Or.inr hc)⟩
      · split at h
        · rename_i hc
          rcases ih h with ⟨used, d, r, rfl, hrest, hd, htakes⟩
          exact ⟨c :: used, d, r, rfl, hrest, hd, htakes.special rfl (Or.inl hc)⟩
        · rename_i hback hquote
          rcases hnext h with ⟨v', hread, rfl⟩
          rcases ih hread with ⟨used, d, r, rfl, hrest, hd, htakes⟩
          exact ⟨c :: used, d, r, rfl, hrest, hd, htakes.plain hquote hback⟩
    | escape =>
      rw [readText] at h
      rcases hnext h with ⟨v', hread, rfl⟩
      rcases ih hread with ⟨used, d, r, rfl, hrest, hd, htakes⟩
      exact ⟨c :: used, d, r, rfl, hrest, hd, htakes.escaped⟩
    | quote =>
      rw [readText] at h
      split at h
      · rename_i hc
        rcases hnext h with ⟨v', hread, rfl⟩
        rcases ih hread with ⟨used, d, r, rfl, hrest, hd, htakes⟩
        rw [hc]
        exact ⟨_, d, r, rfl, hrest, hd, htakes.doubled⟩
      · split at h
        · rename_i hc
          rcases ih h with ⟨used, d, r, rfl, hrest, hd, htakes⟩
          exact ⟨c :: used, d, r, rfl, hrest, hd, htakes.space rfl hc⟩
        · split at h
          · rename_i hc
            cases h
            exact ⟨[], c, s, rfl, rfl, hc, takes_nil rfl⟩
          · cases h
    | between =>
      rw [readText] at h
      split at h
      · rename_i hc
        rcases ih h with ⟨used, d, r, rfl, hrest, hd, htakes⟩
        rw [hc]
        exact ⟨_, d, r, rfl, hrest, hd, htakes.joined⟩
      · split at h
        · rename_i hc
          rcases ih h with ⟨used, d, r, rfl, hrest, hd, htakes⟩
          exact ⟨c :: used, d, r, rfl, hrest, hd, htakes.space rfl hc⟩
        · split at h
          · rename_i hc
            cases h
            exact ⟨[], c, s, rfl, rfl, hc, takes_nil rfl⟩
          · cases h

/-! ## Quoting -/

/-- A clean text is read as it is. -/
theorem readText_of_clean {t : List Char} (h : Clean t) {d : Char} (hd : isEnd d = true)
    (r : List Char) : readText .text (t ++ '\'' :: d :: r) = some (t, d :: r) := by
  induction t using Clean.induct with
  | case1 =>
    have hends : d = ',' ∨ d = ')' := by simpa [isEnd] using hd
    rcases hends with rfl | rfl
    · rfl
    · rfl
  | case2 c t ih =>
    rcases h with ⟨hkept, ht⟩
    have hread : unescape c = ['\\', c] := by
      rcases hkept with rfl | rfl
      · rfl
      · rfl
    rw [List.cons_append, List.cons_append, readText, if_pos rfl, readText, ih ht, hread]
    rfl
  | case3 c t hne ih =>
    have hback : c ≠ '\\' := by
      rintro rfl
      cases t with
      | nil => exact absurd rfl h.2.1
      | cons c' t' => exact hne c' t' rfl rfl
    have hquote : c ≠ '\'' := by
      rintro rfl
      rw [Clean.eq_3 _ _ hne] at h
      exact h.1 rfl
    rw [clean_cons hquote hback] at h
    rw [List.cons_append, readText, if_neg hback, if_neg hquote, ih h]
    rfl

theorem readText_quoted_iff {t rest : List Char} {d : Char} (hd : isEnd d = true) (r : List Char) :
    readText .text (t ++ '\'' :: d :: r) = some (t, rest) ↔ Clean t ∧ rest = d :: r := by
  constructor
  · intro h
    rcases readText_spec h with ⟨used, d', r', hsplit, rfl, -, htakes⟩
    have hle : weight t + 1 ≤ weight used := htakes.weights
    have hall : weight (t ++ ['\'']) = weight t + 1 := by rw [weight_append]; rfl
    rw [← List.singleton_append, ← List.append_assoc] at hsplit
    rcases List.append_eq_append_iff.mp hsplit with ⟨more, hused, hmore⟩ | ⟨more, hused, hmore⟩
    · cases more with
      | nil =>
        rw [List.append_nil] at hused
        refine ⟨htakes.clean ?_, hmore.symm⟩
        rw [hused, hall]
        rfl
      | cons e more =>
        -- the comma after the quote was read as a part of the text
        rcases List.cons.inj hmore with ⟨rfl, -⟩
        have hcount := htakes.counts d hd
        rw [hused, List.count_append, List.count_append, List.count_cons_self] at hcount
        omega
    · rcases List.eq_nil_or_concat' more with rfl | ⟨init, c, rfl⟩
      · rw [List.append_nil] at hused
        refine ⟨htakes.clean ?_, hmore⟩
        rw [← hused, hall]
        rfl
      · -- the text ended before its last quote
        rw [← List.append_assoc] at hused
        have hinit : t = used ++ init := (List.append_inj' hused rfl).1
        rw [hinit, weight_append] at hle
        omega
  · rintro ⟨h, rfl⟩
    exact readText_of_clean h hd r

/-! ## Lists -/

/-- A value between quotes, as it is. -/
def quote (v : List Char) : List Char := '\'' :: v ++ ['\'']

theorem readValue_space (s : List Char) : readValue (' ' :: s) = readValue s := rfl

theorem readValues_space (fuel : Nat) (s : List Char) :
    readValues fuel (' ' :: s) = readValues fuel s := by
  cases fuel with
  | zero => rfl
  | succ fuel => rw [readValues, readValues, readValue_space]

theorem readValue_quote (v s : List Char) :
    readValue (quote v ++ s) = (readText .text (v ++ '\'' :: s)).map fun r => (some r.1, r.2) := by
  rw [quote, List.append_assoc]
  rfl

/-- A quoted value reads as itself exactly when it is clean, and then up to its quote. -/
theorem readValue_quote_iff {c : Option (List Char)} (absent : List Char) {d : Char}
    (hd : isEnd d = true) {r rest : List Char} :
    readValue (quote (c.getD absent) ++ d :: r) = some (c, rest) ↔
      (∃ t, c = some t ∧ Clean t) ∧ rest = d :: r := by
  rw [readValue_quote, Option.map_eq_some_iff]
  constructor
  · rintro ⟨⟨t, rest'⟩, hread, heq⟩
    cases heq
    rcases (readText_quoted_iff hd r).mp hread with ⟨hclean, hrest⟩
    exact ⟨⟨t, rfl, hclean⟩, hrest⟩
  · rintro ⟨⟨t, rfl, hclean⟩, rfl⟩
    exact ⟨(t, d :: r), readText_of_clean hclean hd r, rfl⟩

/-- What the first value of a list reads as, and the others. -/
theorem readValues_cons_iff {fuel : Nat} {s : List Char} {c c' : Option (List Char)}
    {cs : List (Option (List Char))} :
    (readValues (fuel + 1) s).map Prod.fst = some (c :: c' :: cs) ↔
      ∃ rest, readValue s = some (c, ',' :: rest) ∧
        (readValues fuel rest).map Prod.fst = some (c' :: cs) := by
  rw [readValues]
  constructor
  · intro h
    split at h
    · cases h
    · rename_i v rest hread
      rcases Option.map_eq_some_iff.mp h with ⟨row, hrow, hfst⟩
      rcases Option.map_eq_some_iff.mp hrow with ⟨tail, htail, rfl⟩
      rcases List.cons.inj hfst with ⟨rfl, hcs⟩
      exact ⟨rest, hread, by rw [htail, Option.map_some, hcs]⟩
    · cases h
  · rintro ⟨rest, hread, htail⟩
    rcases Option.map_eq_some_iff.mp htail with ⟨tail, htail, hcs⟩
    rw [hread]
    show ((readValues fuel rest).map fun r => (c :: r.1, r.2)).map Prod.fst = _
    rw [htail, Option.map_some, Option.map_some, hcs]

theorem readValues_last_iff {fuel : Nat} {s : List Char} {c : Option (List Char)} :
    (readValues (fuel + 1) s).map Prod.fst = some [c] ↔
      (∃ rest, readValue s = some (c, ')' :: rest)) ∨
        ∃ rest, readValue s = some (c, ',' :: rest) ∧
          (readValues fuel rest).map Prod.fst = some [] := by
  rw [readValues]
  constructor
  · intro h
    split at h
    · rename_i v rest hread
      cases h
      exact Or.inl ⟨rest, hread⟩
    · rename_i v rest hread
      rcases Option.map_eq_some_iff.mp h with ⟨row, hrow, hfst⟩
      rcases Option.map_eq_some_iff.mp hrow with ⟨tail, htail, rfl⟩
      rcases List.cons.inj hfst with ⟨rfl, hcs⟩
      exact Or.inr ⟨rest, hread, by rw [htail, Option.map_some, hcs]⟩
    · cases h
  · rintro (⟨rest, hread⟩ | ⟨rest, hread, htail⟩)
    · rw [hread]
      rfl
    · rcases Option.map_eq_some_iff.mp htail with ⟨tail, htail, hcs⟩
      rw [hread]
      show ((readValues fuel rest).map fun r => (c :: r.1, r.2)).map Prod.fst = _
      rw [htail, Option.map_some, Option.map_some, hcs]

theorem readValues_ne_nil (fuel : Nat) (s : List Char) :
    (readValues fuel s).map Prod.fst ≠ some [] := by
  intro h
  cases fuel with
  | zero => cases h
  | succ fuel =>
    rw [readValues] at h
    split at h
    · cases h
    · rcases Option.map_eq_some_iff.mp h with ⟨row, hrow, hfst⟩
      rcases Option.map_eq_some_iff.mp hrow with ⟨tail, -, rfl⟩
      cases hfst
    · cases h

/-- Values that were put between quotes as they are, `absent` for one that is missing, read as
themselves exactly when none is missing and all are clean, whatever follows the list. -/
theorem readValues_quoted_iff (absent : List Char) {cols : List (Option (List Char))}
    (hne : cols ≠ []) {fuel : Nat} (hfuel : cols.length ≤ fuel) (rest : List Char) :
    (readValues fuel ([',', ' '].intercalate (cols.map fun c => quote (c.getD absent)) ++
        ')' :: rest)).map Prod.fst = some cols ↔
      ∀ c ∈ cols, ∃ t, c = some t ∧ Clean t := by
  induction cols generalizing fuel with
  | nil => exact absurd rfl hne
  | cons c cs ih =>
    rcases Nat.exists_eq_add_of_le' (Nat.lt_of_lt_of_le (Nat.succ_pos _) hfuel) with ⟨fuel, rfl⟩
    cases cs with
    | nil =>
      rw [List.map_cons, List.map_nil, List.intercalate_singleton, readValues_last_iff,
        List.forall_mem_singleton]
      constructor
      · rintro (⟨rest', hread⟩ | ⟨rest', -, htail⟩)
        · exact ((readValue_quote_iff absent rfl).mp hread).1
        · exact absurd htail (readValues_ne_nil _ _)
      · intro hc
        exact Or.inl ⟨rest, (readValue_quote_iff absent rfl).mpr ⟨hc, rfl⟩⟩
    | cons c' cs =>
      have htext : [',', ' '].intercalate
          ((c :: c' :: cs).map fun c => quote (c.getD absent)) ++
          ')' :: rest = quote (c.getD absent) ++ ',' :: ' ' ::
            ([',', ' '].intercalate ((c' :: cs).map fun c => quote (c.getD absent)) ++
              ')' :: rest) := by
        simp [List.intercalate]
      have hlen : (c' :: cs).length ≤ fuel := Nat.le_of_succ_le_succ hfuel
      rw [htext, readValues_cons_iff, List.forall_mem_cons,
        ← ih (List.cons_ne_nil _ _) hlen]
      constructor
      · rintro ⟨rest', hread, htail⟩
        rcases (readValue_quote_iff absent rfl).mp hread with ⟨hc, heq⟩
        rcases List.cons.inj heq with ⟨-, rfl⟩
        rw [readValues_space] at htail
        exact ⟨hc, htail⟩
      · rintro ⟨hc, htail⟩
        refine ⟨_, (readValue_quote_iff absent rfl).mpr ⟨hc, rfl⟩, ?_⟩
        rw [readValues_space]
        exact htail

end Base.SqlValues
