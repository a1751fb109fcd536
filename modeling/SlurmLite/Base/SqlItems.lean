import SlurmLite.Base.SqlValues

/-!
# Items of a query text

A text of a query, read as what stands between its commas. A literal is put
between single or double quotes; in it a backslash takes the next character
along and a doubled quote is one quote. The reader is an automaton over the
characters, so that a text that goes on is read on from where it stood.

* **Literals** (`IsLiteral`): the texts that are one literal with one value
  wherever they are placed.
* **Items** (`read`): the tokens between the commas outside of literals.
-/

namespace Base.SqlItems

open Base.SqlValues (unescape)

/-- What an item consists of: characters outside of literals, and literals with
their values. -/
inductive Tok where
  | ch (c : Char)
  | lit (v : List Char)
deriving DecidableEq

/-- The place of the reader; `quote` is behind a quote that ends its literal unless
another one follows. -/
inductive Mode where
  | out
  | inside (q : Char)
  | escape (q : Char)
  | quote (q : Char)
deriving DecidableEq

/-- The reader: its place, the value of the literal so far, the item so far and the
items before. -/
structure Lexer where
  mode : Mode
  cur : List Char
  item : List Tok
  items : List (List Tok)
deriving DecidableEq

def isQuote (c : Char) : Bool := c = '"' ∨ c = '\''

/-- A character outside of literals. -/
def outside (s : Lexer) (c : Char) : Lexer :=
  if isQuote c then { s with mode := .inside c, cur := [] }
  else if c = ',' then { mode := .out, cur := s.cur, item := [], items := s.items ++ [s.item] }
  else { s with mode := .out, item := s.item ++ [.ch c] }

/-- One character. -/
def step (s : Lexer) (c : Char) : Lexer :=
  match s.mode with
  | .out => outside s c
  | .inside q =>
    if c = '\\' then { s with mode := .escape q }
    else if c = q then { s with mode := .quote q }
    else { s with cur := s.cur ++ [c] }
  | .escape q => { s with mode := .inside q, cur := s.cur ++ unescape c }
  | .quote q =>
    if c = q then { s with mode := .inside q, cur := s.cur ++ [c] }
    else outside { s with item := s.item ++ [.lit s.cur] } c

/-- The reader after a text. -/
def run (s : Lexer) (t : List Char) : Lexer := t.foldl step s

/-- The items once the text has ended; there are none in an open literal. -/
def finish (s : Lexer) : Option (List (List Tok)) :=
  match s.mode with
  | .out => some (s.items ++ [s.item])
  | .quote _ => some (s.items ++ [s.item ++ [.lit s.cur]])
  | .inside _ => none
  | .escape _ => none

def start : Lexer := ⟨.out, [], [], []⟩

/-- The items of a text. -/
def read (t : List Char) : Option (List (List Tok)) := finish (run start t)

/-- One literal with the value `v`, wherever it is placed outside of literals. -/
def IsLiteral (q : Char) (t v : List Char) : Prop :=
  ∀ s : Lexer, s.mode = .out → run s t = { s with mode := .quote q, cur := v }

/-! ## The run -/

@[simp] theorem run_nil (s : Lexer) : run s [] = s := rfl

@[simp] theorem run_cons (s : Lexer) (c : Char) (t : List Char) :
    run s (c :: t) = run (step s c) t := rfl

theorem run_append (s : Lexer) (t u : List Char) : run s (t ++ u) = run (run s t) u :=
  List.foldl_append

section Steps

variable {s : Lexer} {q c : Char}

theorem step_open (h : s.mode = .out) (hc : isQuote c = true) :
    step s c = { s with mode := .inside c, cur := [] } := by
  simp [step, h, outside, hc]

theorem step_backslash (h : s.mode = .inside q) :
    step s '\\' = { s with mode := .escape q } := by
  simp [step, h]

theorem step_escaped (h : s.mode = .escape q) :
    step s c = { s with mode := .inside q, cur := s.cur ++ unescape c } := by
  simp [step, h]

theorem step_close (h : s.mode = .inside q) (hq : q ≠ '\\') :
    step s q = { s with mode := .quote q } := by
  simp [step, h, hq]

theorem step_inside (h : s.mode = .inside q) (hc : c ≠ '\\') (hq : c ≠ q) :
    step s c = { s with cur := s.cur ++ [c] } := by
  simp [step, h, hc, hq]

end Steps

/-- Something stands in the items. -/
def Started (s : Lexer) : Prop := s.item ≠ [] ∨ s.items ≠ []

theorem Started.outside {s : Lexer} (h : Started s) (c : Char) : Started (outside s c) := by
  unfold SqlItems.outside
  split
  · exact h
  · split
    · exact .inr (by simp)
    · exact .inl (by simp)

theorem Started.step {s : Lexer} (h : Started s) (c : Char) : Started (step s c) := by
  unfold SqlItems.step
  split
  · exact h.outside c
  · split
    · exact h
    · split
      · exact h
      · exact h
  · exact h
  · split
    · exact h
    · exact Started.outside (.inl (by simp)) c

theorem Started.run {s : Lexer} (h : Started s) (t : List Char) : Started (run s t) := by
  induction t generalizing s with
  | nil => exact h
  | cons c t ih => exact ih (h.step c)

/-- A literal is over when another character than its quote follows. -/
theorem started_of_over {s : Lexer} {q c : Char} (h : s.mode = .quote q) (hc : c ≠ q) :
    Started (step s c) := by
  have hlit : Started { s with item := s.item ++ [.lit s.cur] } := .inl (by simp)
  have hstep : step s c = outside { s with item := s.item ++ [.lit s.cur] } c := by
    simp [SqlItems.step, h, hc]
  rw [hstep]
  exact hlit.outside c

end Base.SqlItems
