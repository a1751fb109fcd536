import SlurmLite.Base.SqlItems

/-!
# Escaping double quotes

`_fix_double_quotes` puts a backslash before each double quote of a text that
`_modify_common` and `_remove_common` place between double quotes. Backslashes
of the text itself are left alone.

* **The function** (`fixDoubleQuotes_eq`): every double quote is escaped; the
  empty text gives NULL, which is printed as `(null)`.
* **Reading back** (`isLiteral_iff`): when the text between the quotes is one
  literal with the value that was meant.
-/

namespace Slurm.AssocTable

open Base.SqlItems
open Base.SqlValues (unescape unescape_cases)

/-- The loop: the text still to come, the part since `start`, and `fixed`. -/
def fixLoop : List Char → List Char → Option (List Char) → Option (List Char)
  | [], chunk, fixed => if chunk ≠ [] then some (fixed.getD [] ++ chunk) else fixed
  | c :: str, chunk, fixed =>
    if c = '"' then fixLoop str [] (some (fixed.getD [] ++ (chunk ++ ['\\', '"'])))
    else fixLoop str (chunk ++ [c]) fixed

/-- `_fix_double_quotes`; `none` is NULL. -/
def fixDoubleQuotes (str : Option (List Char)) : Option (List Char) :=
  str.bind fun str => fixLoop str [] none

/-- What `\"%s\"` prints for the result. -/
def placed (fixed : Option (List Char)) : List Char :=
  '"' :: fixed.getD "(null)".toList ++ ['"']

/-- Every backslash stands before a `%` or a `_`. -/
def KeepsBackslashes (s : List Char) : Prop :=
  ∀ a b, s = a ++ '\\' :: b → b.head? = some '%' ∨ b.head? = some '_'

/-! ## The function -/

/-- A backslash before each double quote. -/
def escaped (s : List Char) : List Char := s.flatMap fun c => if c = '"' then ['\\', '"'] else [c]

@[simp] theorem escaped_nil : escaped [] = [] := rfl

theorem escaped_cons (c : Char) (s : List Char) :
    escaped (c :: s) = (if c = '"' then ['\\', '"'] else [c]) ++ escaped s := rfl

theorem fixLoop_eq (s chunk : List Char) (fixed : Option (List Char)) :
    fixLoop s chunk fixed =
      if chunk = [] ∧ s = [] then fixed
      else some (fixed.getD [] ++ chunk ++ escaped s) := by
  induction s generalizing chunk fixed with
  | nil => by_cases h : chunk = [] <;> simp [fixLoop, h]
  | cons c s ih =>
    have hne : ¬ (chunk = [] ∧ c :: s = []) := by simp
    rw [fixLoop, if_neg hne]
    by_cases hc : c = '"'
    · rw [if_pos hc, ih, escaped_cons, if_pos hc]
      by_cases hs : s = []
      · simp [hs]
      · simp [hs]
    · have hne' : ¬ (chunk ++ [c] = [] ∧ s = []) := by simp
      rw [if_neg hc, ih, if_neg hne', escaped_cons, if_neg hc]
      simp

theorem fixDoubleQuotes_eq (s : List Char) :
    fixDoubleQuotes (some s) = if s = [] then none else some (escaped s) := by
  show fixLoop s [] none = _
  rw [fixLoop_eq]
  by_cases hs : s = [] <;> simp [hs]

/-! ## Backslashes -/

theorem keeps_nil : KeepsBackslashes [] := by
  intro a b h
  simp at h

theorem keeps_cons_of_ne {c : Char} (hc : c ≠ '\\') {s : List Char} :
    KeepsBackslashes (c :: s) ↔ KeepsBackslashes s := by
  constructor
  · intro h a b hs
    exact h (c :: a) b (by rw [hs, List.cons_append])
  · intro h a b hs
    cases a with
    | nil => exact absurd (List.cons.inj hs).1 hc
    | cons d a => exact h a b (List.cons.inj hs).2

theorem keeps_backslash_cons {c : Char} {s : List Char} :
    KeepsBackslashes ('\\' :: c :: s) ↔ (c = '%' ∨ c = '_') ∧ KeepsBackslashes s := by
  constructor
  · intro h
    have hc : c = '%' ∨ c = '_' := by simpa using h [] (c :: s) rfl
    refine ⟨hc, fun a b hs => ?_⟩
    exact h ('\\' :: c :: a) b (by rw [hs]; rfl)
  · rintro ⟨hc, h⟩ a b hs
    match a with
    | [] =>
      obtain rfl := (List.cons.inj hs).2
      simpa using hc
    | [d] =>
      have hd : c = '\\' := (List.cons.inj (List.cons.inj hs).2).1
      rw [hd] at hc
      exact absurd hc (by decide)
    | d :: e :: a => exact h a b (List.cons.inj (List.cons.inj hs).2).2

theorem not_keeps_backslash : ¬ KeepsBackslashes ['\\'] := by
  intro h
  have := h [] [] rfl
  simp at this

/-! ## Reading back -/

/-- A backslash and what it takes along. -/
theorem run_escape {s : Lexer} {q : Char} (h : s.mode = .inside q) (c : Char) (t : List Char) :
    run s ('\\' :: c :: t) = run { s with cur := s.cur ++ unescape c } t := by
  rw [run_cons, run_cons, step_backslash h, step_escaped rfl, ← h]

/-- A text whose backslashes are kept is read as it is. -/
theorem run_escaped {t : List Char} (ht : KeepsBackslashes t) {s : Lexer}
    (h : s.mode = .inside '"') : run s (escaped t) = { s with cur := s.cur ++ t } := by
  match t with
  | [] => simp
  | c :: t =>
    rw [escaped_cons]
    by_cases hq : c = '"'
    · subst hq
      have hrest := run_escaped ((keeps_cons_of_ne (by decide)).mp ht)
        (s := { s with cur := s.cur ++ unescape '"' }) h
      rw [if_pos rfl]
      exact (run_escape h '"' (escaped t)).trans (by rw [hrest]; simp [unescape])
    · rw [if_neg hq, List.singleton_append]
      by_cases hb : c = '\\'
      · subst hb
        cases t with
        | nil => exact absurd ht not_keeps_backslash
        | cons d t =>
          obtain ⟨hd, ht⟩ := keeps_backslash_cons.mp ht
          have hdq : d ≠ '"' := by rintro rfl; exact absurd hd (by decide)
          have hread : unescape d = ['\\', d] := by rcases hd with rfl | rfl <;> rfl
          have hrest := run_escaped ht (s := { s with cur := s.cur ++ unescape d }) h
          rw [escaped_cons, if_neg hdq, List.singleton_append, run_escape h, hrest, hread]
          simp
      · have hrest := run_escaped ((keeps_cons_of_ne hb).mp ht)
          (s := { s with cur := s.cur ++ [c] }) h
        rw [run_cons, step_inside h hb hq, hrest]
        simp

theorem length_unescape (c : Char) :
    (unescape c).length = if c = '%' ∨ c = '_' then 2 else 1 := by
  rcases unescape_cases c with ⟨hc, hread⟩ | ⟨e, hread, -, -⟩
  · rw [hread, if_pos hc]
    rfl
  · rw [hread, if_neg]
    · rfl
    · intro hc
      have hkept : unescape c = ['\\', c] := by rcases hc with rfl | rfl <;> rfl
      rw [hkept] at hread
      simp at hread

/-- A text that takes the reader to the end of its literal gives no more characters
than it has, and as many only if its backslashes are kept. -/
theorem length_of_closed {t : List Char} {s : Lexer} (h : s.mode = .inside '"')
    (hclosed : (run s (escaped t ++ ['"'])).mode = .quote '"')
    (hnot : ¬ Started (run s (escaped t ++ ['"']))) :
    (run s (escaped t ++ ['"'])).cur.length ≤ s.cur.length + t.length ∧
      ((run s (escaped t ++ ['"'])).cur.length = s.cur.length + t.length →
        KeepsBackslashes t) := by
  match t with
  | [] =>
    rw [escaped_nil, List.nil_append, run_cons, step_close h (by decide)]
    exact ⟨Nat.le_refl _, fun _ => keeps_nil⟩
  | c :: t =>
    rw [escaped_cons] at hclosed hnot ⊢
    by_cases hq : c = '"'
    · subst hq
      rw [if_pos rfl, List.append_assoc] at hclosed hnot ⊢
      have hstep := run_escape h '"' (escaped t ++ ['"'])
      have hrest := length_of_closed (t := t) (s := { s with cur := s.cur ++ unescape '"' }) h
        (hstep ▸ hclosed) (hstep ▸ hnot)
      have hlen : (s.cur ++ unescape '"').length = s.cur.length + 1 := by simp [unescape]
      rw [keeps_cons_of_ne (by decide), List.cons_append, List.singleton_append, hstep,
        List.length_cons]
      rw [hlen] at hrest
      exact ⟨by omega, fun he => hrest.2 (by omega)⟩
    · rw [if_neg hq, List.singleton_append, List.cons_append] at hclosed hnot ⊢
      by_cases hb : c = '\\'
      · subst hb
        cases t with
        | nil =>
          -- the closing quote is taken along
          rw [escaped_nil, List.nil_append, run_escape h, run_nil, h] at hclosed
          cases hclosed
        | cons d t =>
          rw [escaped_cons] at hclosed hnot ⊢
          by_cases hdq : d = '"'
          · subst hdq
            rw [if_pos rfl, List.append_assoc, List.cons_append, List.singleton_append,
              run_escape h, run_cons,
              step_close (s := { s with cur := s.cur ++ unescape '\\' }) h (by decide)]
              at hclosed hnot
            cases t with
            | nil =>
              -- the closing quote doubles the quote of the text
              simp [step] at hclosed
            | cons e t =>
              exfalso
              have hhead : ∃ e' u, escaped (e :: t) ++ ['"'] = e' :: u ∧ e' ≠ '"' := by
                rw [escaped_cons]
                by_cases he : e = '"'
                · rw [if_pos he]
                  exact ⟨'\\', _, rfl, by decide⟩
                · rw [if_neg he]
                  exact ⟨e, _, rfl, he⟩
              obtain ⟨e', u, heq, hne⟩ := hhead
              rw [heq, run_cons] at hnot
              exact hnot ((started_of_over rfl hne).run u)
          · rw [if_neg hdq, List.singleton_append, List.cons_append] at hclosed hnot ⊢
            have hstep := run_escape h d (escaped t ++ ['"'])
            have hrest := length_of_closed (t := t)
              (s := { s with cur := s.cur ++ unescape d }) h (hstep ▸ hclosed) (hstep ▸ hnot)
            have hlen : (s.cur ++ unescape d).length =
                s.cur.length + if d = '%' ∨ d = '_' then 2 else 1 := by
              rw [List.length_append, length_unescape]
            rw [hstep, keeps_backslash_cons, List.length_cons, List.length_cons]
            rw [hlen] at hrest
            split at hrest
            · rename_i hd
              exact ⟨by omega, fun he => ⟨hd, hrest.2 (by omega)⟩⟩
            · exact ⟨by omega, fun he => by omega⟩
      · have hstep : run s (c :: (escaped t ++ ['"'])) =
            run { s with cur := s.cur ++ [c] } (escaped t ++ ['"']) := by
          rw [run_cons, step_inside h hb hq]
        have hrest := length_of_closed (t := t) (s := { s with cur := s.cur ++ [c] }) h
          (hstep ▸ hclosed) (hstep ▸ hnot)
        rw [keeps_cons_of_ne hb, hstep, List.length_cons]
        rw [List.length_append, List.length_singleton] at hrest
        exact ⟨by omega, fun he => hrest.2 (by omega)⟩

/-- **Escaped texts.** Between double quotes a text that went through
`_fix_double_quotes` is one literal with the text as its value exactly when the
text is not empty and each of its backslashes stands before a `%` or a `_`. -/
theorem isLiteral_iff (s : List Char) :
    IsLiteral '"' (placed (fixDoubleQuotes (some s))) s ↔ s ≠ [] ∧ KeepsBackslashes s := by
  rw [fixDoubleQuotes_eq]
  constructor
  · intro h
    have hstart := h start rfl
    by_cases hs : s = []
    · subst hs
      exfalso
      revert hstart
      decide
    · rw [if_neg hs, placed, Option.getD_some, List.cons_append, run_cons,
        step_open rfl rfl] at hstart
      have hclosed := length_of_closed (t := s) (s := ⟨.inside '"', [], [], []⟩) rfl
      have heq : run ⟨.inside '"', [], [], []⟩ (escaped s ++ ['"']) =
          ⟨.quote '"', s, [], []⟩ := hstart
      rw [heq] at hclosed
      have hnot : ¬ Started ⟨.quote '"', s, [], []⟩ := by simp [Started]
      exact ⟨hs, (hclosed rfl hnot).2 (by simp)⟩
  · rintro ⟨hs, hkeeps⟩ l hl
    rw [if_neg hs, placed, Option.getD_some, List.cons_append, run_cons, step_open hl rfl,
      run_append, run_escaped hkeeps rfl, run_cons, run_nil, step_close rfl (by decide)]
    simp

/-- The condition `name="a\"` of a name that ends with a backslash. -/
theorem not_isLiteral_backslash :
    ¬ IsLiteral '"' (placed (fixDoubleQuotes (some "name=\"a\\\"".toList)))
      "name=\"a\\\"".toList := by
  intro h
  have hstart := h start rfl
  revert hstart
  decide

end Slurm.AssocTable
