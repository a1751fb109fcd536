import SlurmLite.Base.MapM
import SlurmLite.Base.SqlParts
import Mathlib.Data.List.Nodup
import Mathlib.Data.List.Perm.Basic

/-!
# Rows of a query text

A row is put into a query three times: the names of its columns, their values, and the
assignments that an update makes of them.

* **Reading** (`readValues`, `readAssignments`): the values and the assignments of a text.
* **Places** (`outside_of_read`): where the same texts are quoted in values and in
  assignments, every part begins outside; an `=` for each assignment can only come
  from the names.
* **Agreement** (`agrees_iff`): when the three texts say the same.
-/

namespace Base.SqlRows

open Base.MapM Base.SqlItems

/-! ## Values and assignments -/

/-- A value: a word such as a number or NULL, or the literals that stand together. -/
inductive Value where
  | word (w : List Char)
  | str (v : List Char)
deriving DecidableEq

/-- A blank outside of literals. -/
def isBlank : Tok → Bool
  | .ch c => c = ' '
  | .lit _ => false

/-- A token without the blanks around it. -/
def strip (toks : List Tok) : List Tok :=
  ((toks.dropWhile isBlank).reverse.dropWhile isBlank).reverse

/-- The characters of a word. -/
def word (toks : List Tok) : Option (List Char) :=
  if strip toks = [] then none
  else (strip toks).mapM fun
    | .ch c => if wordChar c then some c else none
    | .lit _ => none

/-- The literals of a token, joined. -/
def joined : List Tok → Option (List Char)
  | [] => some []
  | .lit v :: toks => (joined toks).map (v ++ ·)
  | .ch c :: toks => if c = ' ' then joined toks else none

/-- The value of an item. -/
def value (toks : List Tok) : Option Value :=
  if toks.any fun | .lit _ => true | .ch _ => false then (joined toks).map .str
  else (word toks).map .word

/-- The parts before and behind the first `=`. -/
def splitEq : List Tok → Option (List Tok × List Tok)
  | [] => none
  | t :: toks =>
    if t = .ch '=' then some ([], toks) else (splitEq toks).map fun r => (t :: r.1, r.2)

/-- `name=value`. -/
def assignment (toks : List Tok) : Option (List Char × Value) := do
  let (lhs, rhs) ← splitEq toks
  pure (← word lhs, ← value rhs)

/-- The items of a text that is empty or begins with a comma. -/
def itemsOf (t : List Char) : Option (List (List Tok)) :=
  match read t with
  | some ([] :: items) => some items
  | _ => none

def readWords (t : List Char) : Option (List (List Char)) :=
  (itemsOf t).bind fun items => items.mapM word

def readValues (t : List Char) : Option (List Value) :=
  (itemsOf t).bind fun items => items.mapM value

def readAssignments (t : List Char) : Option (List (List Char × Value)) :=
  (itemsOf t).bind fun items => items.mapM assignment

/-! ## Values hold no `=`, assignments do -/

theorem mem_dropWhile {α : Type*} {p : α → Bool} {x : α} {l : List α} (hx : x ∈ l)
    (hp : p x = false) : x ∈ l.dropWhile p := by
  rw [← List.takeWhile_append_dropWhile (p := p) (l := l), List.mem_append] at hx
  rcases hx with hx | hx
  · exact absurd (List.mem_takeWhile_imp hx) (by simp [hp])
  · exact hx

theorem mem_strip {x : Tok} {toks : List Tok} (hx : x ∈ toks) (hp : isBlank x = false) :
    x ∈ strip toks := by
  rw [strip, List.mem_reverse]
  exact mem_dropWhile (List.mem_reverse.mpr (mem_dropWhile hx hp)) hp

theorem eqs_of_word {toks : List Tok} {w : List Char} (h : word toks = some w) :
    eqs toks = 0 := by
  refine List.count_eq_zero.mpr fun hmem => ?_
  unfold word at h
  split at h
  next => cases h
  next =>
    obtain ⟨c, -, hc⟩ := mem_mapM h (mem_strip hmem (by decide))
    have heq : wordChar '=' = false := by decide
    simp [heq] at hc

theorem eqs_of_joined {toks : List Tok} {v : List Char} (h : joined toks = some v) :
    eqs toks = 0 := by
  induction toks generalizing v with
  | nil => rfl
  | cons t toks ih =>
    cases t with
    | lit u =>
      obtain ⟨v', hv', -⟩ := Option.map_eq_some_iff.mp h
      have hrest := ih hv'
      simpa [eqs] using hrest
    | ch c =>
      rw [joined] at h
      split at h
      next hc =>
        have hrest := ih h
        rw [hc]
        simpa [eqs] using hrest
      next => cases h

theorem eqs_of_value {toks : List Tok} {v : Value} (h : value toks = some v) : eqs toks = 0 := by
  unfold value at h
  split at h
  · obtain ⟨u, hu, -⟩ := Option.map_eq_some_iff.mp h
    exact eqs_of_joined hu
  · obtain ⟨w, hw, -⟩ := Option.map_eq_some_iff.mp h
    exact eqs_of_word hw

theorem splitEq_mem {toks : List Tok} {r : List Tok × List Tok} (h : splitEq toks = some r) :
    .ch '=' ∈ toks := by
  induction toks generalizing r with
  | nil => cases h
  | cons t toks ih =>
    rw [splitEq] at h
    split at h
    next ht => exact ht ▸ List.mem_cons_self
    next =>
      obtain ⟨r', hr', -⟩ := Option.map_eq_some_iff.mp h
      exact List.mem_cons_of_mem _ (ih hr')

theorem eqs_of_assignment {toks : List Tok} {a : List Char × Value}
    (h : assignment toks = some a) : 1 ≤ eqs toks := by
  obtain ⟨r, hr, -⟩ := Option.bind_eq_some_iff.mp h
  exact List.count_pos_iff.mpr (splitEq_mem hr)

/-! ## Columns -/

/-- A column as it is put into the three texts. -/
structure Entry where
  col : List Char
  val : Body
  name : List Char
  upd : Body

def Entry.colPart (e : Entry) : Part := ⟨[], .word e.col⟩

def Entry.valPart (e : Entry) : Part := ⟨[], e.val⟩

def Entry.updPart (e : Entry) : Part := ⟨e.name ++ ['='], e.upd⟩

structure Entry.Ok (e : Entry) : Prop where
  col : Word e.col
  val : e.val.Ok
  name : Word e.name
  upd : e.upd.Ok

theorem Entry.Ok.colPart {e : Entry} (h : e.Ok) : e.colPart.Ok :=
  ⟨fun _ hc => absurd hc List.not_mem_nil, h.col⟩

theorem Entry.Ok.valPart {e : Entry} (h : e.Ok) : e.valPart.Ok :=
  ⟨fun _ hc => absurd hc List.not_mem_nil, h.val⟩

theorem Entry.Ok.updPart {e : Entry} (h : e.Ok) : e.updPart.Ok := by
  refine ⟨fun c hc => ?_, h.upd⟩
  rcases List.mem_append.mp hc with hc | hc
  · exact Or.inl (h.name.2 c hc)
  · exact Or.inr (List.mem_singleton.mp hc)

/-- The same text in the same quotes, or two words. -/
inductive Parallel : Body → Body → Prop
  | word (w w' : List Char) : Parallel (.word w) (.word w')
  | quoted (q : Char) (t : List Char) : Parallel (.quoted q t) (.quoted q t)

/-- The places that a word does not leave. -/
inductive Steady : Mode → Prop
  | out : Steady .out
  | inside {q : Char} (hq : isQuote q = true) : Steady (.inside q)

/-- The `=` that are read behind a name. -/
def outGain (m : Mode) : Nat := if isClosed m then 1 else 0

theorem steady_step {m : Mode} (h : Steady m) {c : Char} (hc : wordChar c = true ∨ c = '=') :
    modeStep m c = m := by
  have hq : isQuote c = false := by
    rcases hc with hc | rfl
    · exact (plain_of_wordChar hc).1
    · decide
  cases h with
  | out => simp [modeStep, outsideMode, hq]
  | @inside q hquote =>
    have hne : c ≠ q := by
      rintro rfl
      rw [hquote] at hq
      cases hq
    have hback : c ≠ '\\' := by
      rintro rfl
      rcases hc with hc | hc
      · exact absurd hc (by decide)
      · exact absurd hc (by decide)
    simp [modeStep, hne, hback]

theorem steady_run {m : Mode} (h : Steady m) {w : List Char}
    (hw : ∀ c ∈ w, wordChar c = true ∨ c = '=') : modeRun m w = m := by
  induction w with
  | nil => rfl
  | cons c w ih =>
    obtain ⟨hc, hw⟩ := List.forall_mem_cons.mp hw
    have hrest := ih hw
    show modeRun (modeStep m c) w = m
    rw [steady_step h hc, hrest]

theorem gains_word {m : Mode} {w : List Char} (hw : '=' ∉ w) : gains m w = 0 := by
  induction w generalizing m with
  | nil => rfl
  | cons c w ih =>
    rw [List.mem_cons, not_or] at hw
    rw [gains, ih hw.2, if_neg (fun h => hw.1 h.1.symm)]

theorem word_eq {w : List Char} (h : Word w) : '=' ∉ w := fun hmem =>
  absurd (h.2 _ hmem) (by decide)

/-- Behind a comma and a blank, the reader is outside or in a literal. -/
theorem steady_comma {m : Mode} (h : isQuoted m) :
    Steady (modeRun m [',', ' ']) ∧ outGain (modeRun m [',', ' ']) = outGain m := by
  have hne : ∀ {q : Char}, isQuote q = true → ',' ≠ q ∧ ' ' ≠ q := by
    intro q hq
    constructor <;> rintro rfl <;> exact absurd hq (by decide)
  cases m with
  | out => exact ⟨.out, rfl⟩
  | inside q =>
    have hrun : modeRun (.inside q) [',', ' '] = .inside q := by
      simp [modeRun, modeStep, (hne h).1, (hne h).2]
    rw [hrun]
    exact ⟨.inside h, rfl⟩
  | escape q =>
    have hrun : modeRun (.escape q) [',', ' '] = .inside q := by
      simp [modeRun, modeStep, (hne h).2]
    rw [hrun]
    exact ⟨.inside h, rfl⟩
  | quote q =>
    have hrun : modeRun (.quote q) [',', ' '] = .out := by
      have hcomma : outsideMode ',' = .out := by decide
      have hblank : outsideMode ' ' = .out := by decide
      simp [modeRun, modeStep, (hne h).1, hcomma, hblank]
    rw [hrun]
    exact ⟨.out, rfl⟩

/-- A name with its `=` is read where it begins. -/
theorem gains_name {m : Mode} (h : Steady m) {name : List Char} (hname : Word name) :
    gains m (name ++ ['=']) = outGain m := by
  have hsteady : modeRun m name = m := steady_run h fun c hc => Or.inl (hname.2 c hc)
  rw [gains_append, gains_word (word_eq hname), hsteady, Nat.zero_add]
  cases h with
  | out => rfl
  | inside hq => rfl

/-- An entry takes the reader of the values and that of the assignments to the same
place, and an `=` outside comes with its name. -/
theorem lockstep {e : Entry} (he : e.Ok) (hpar : Parallel e.val e.upd) {m : Mode}
    (hm : isQuoted m) :
    modeRun m e.updPart.text = modeRun m e.valPart.text ∧
      gains m e.updPart.text = gains m e.valPart.text + outGain m := by
  obtain ⟨hsteady, hgain⟩ := steady_comma hm
  have hcomma : gains m [',', ' '] = 0 := gains_word (by decide)
  have hval : ∀ t : List Char, modeRun m ([',', ' '] ++ t) = modeRun (modeRun m [',', ' ']) t ∧
      gains m ([',', ' '] ++ t) = gains (modeRun m [',', ' ']) t := fun t =>
    ⟨modeRun_append _ _ _, by rw [gains_append, hcomma, Nat.zero_add]⟩
  have hvalText : e.valPart.text = [',', ' '] ++ e.val.text := rfl
  have hupdText : e.updPart.text = [',', ' '] ++ ((e.name ++ ['=']) ++ e.upd.text) := rfl
  rw [hvalText, hupdText, (hval _).1, (hval _).1, (hval _).2, (hval _).2]
  generalize modeRun m [',', ' '] = n at hsteady hgain
  have hname : modeRun n (e.name ++ ['=']) = n := by
    refine steady_run hsteady fun c hc => ?_
    rcases List.mem_append.mp hc with hc | hc
    · exact Or.inl (he.name.2 c hc)
    · exact Or.inr (List.mem_singleton.mp hc)
  rw [modeRun_append, gains_append, gains_name hsteady he.name, hname, hgain]
  have hokv := he.val
  have hoku := he.upd
  generalize e.val = v at hokv hpar
  generalize e.upd = u at hoku hpar
  cases hpar with
  | word w w' =>
    have hw : modeRun n w = n := steady_run hsteady fun c hc => Or.inl (hokv.2 c hc)
    have hw' : modeRun n w' = n := steady_run hsteady fun c hc => Or.inl (hoku.2 c hc)
    rw [Body.text, Body.text, hw, hw', gains_word (word_eq hokv), gains_word (word_eq hoku)]
    exact ⟨rfl, by omega⟩
  | quoted q t => exact ⟨rfl, by omega⟩

/-- How many parts begin outside. -/
def outs : Mode → List Part → Nat
  | _, [] => 0
  | m, p :: ps => outGain m + outs (modeRun m p.text) ps

theorem outs_le (m : Mode) (ps : List Part) :
    outs m ps ≤ ps.length ∧ (outs m ps = ps.length → Outside m ps) := by
  induction ps generalizing m with
  | nil => exact ⟨Nat.le_refl _, fun _ => trivial⟩
  | cons p ps ih =>
    have hrest := ih (modeRun m p.text)
    rw [outs, List.length_cons, outGain]
    cases hc : isClosed m with
    | true =>
      rw [if_pos rfl]
      exact ⟨by omega, fun h => ⟨hc, hrest.2 (by omega)⟩⟩
    | false =>
      rw [if_neg (by simp)]
      exact ⟨by omega, fun h => by omega⟩

theorem lockstep_run {es : List Entry} (hok : ∀ e ∈ es, e.Ok)
    (hpar : ∀ e ∈ es, Parallel e.val e.upd) {m : Mode} (hm : isQuoted m) :
    gains m (partsText (es.map Entry.updPart)) =
        gains m (partsText (es.map Entry.valPart)) + outs m (es.map Entry.valPart) ∧
      (Outside m (es.map Entry.valPart) → Outside m (es.map Entry.updPart)) := by
  induction es generalizing m with
  | nil => exact ⟨rfl, fun _ => trivial⟩
  | cons e es ih =>
    obtain ⟨he, hok⟩ := List.forall_mem_cons.mp hok
    obtain ⟨hpe, hpar⟩ := List.forall_mem_cons.mp hpar
    obtain ⟨hmode, hgain⟩ := lockstep he hpe hm
    obtain ⟨hgains, hout⟩ := ih hok hpar (quoted_run hm e.valPart.text)
    have hupd : partsText ((e :: es).map Entry.updPart) =
        e.updPart.text ++ partsText (es.map Entry.updPart) := rfl
    have hval : partsText ((e :: es).map Entry.valPart) =
        e.valPart.text ++ partsText (es.map Entry.valPart) := rfl
    constructor
    · rw [hupd, hval, gains_append, gains_append, hgain, hmode, hgains, List.map_cons, outs]
      omega
    · rintro ⟨hclosed, hrest⟩
      refine ⟨hclosed, ?_⟩
      rw [hmode]
      exact hout hrest

/-! ## Reading parts -/

theorem itemsOf_eq_some_iff {t : List Char} {items : List (List Tok)} :
    itemsOf t = some items ↔ read t = some ([] :: items) := by
  unfold itemsOf
  split
  next items' h => rw [h]; simp
  next hno =>
    constructor
    · intro h
      cases h
    · intro h
      exact absurd h (hno items)

theorem itemsOf_parts {ps : List Part} (hps : ∀ p ∈ ps, p.Ok)
    (htoks : ∀ p ∈ ps, p.body.tokens.isSome) :
    itemsOf (partsText ps) = some (ps.map Part.item) :=
  itemsOf_eq_some_iff.mpr (finish_parts hps htoks (s := start) rfl rfl)

theorem tokens_of_items {ps : List Part} (hps : ∀ p ∈ ps, p.Ok) (hout : Outside .out ps)
    {items : List (List Tok)} (hitems : itemsOf (partsText ps) = some items)
    (hlen : items.length = ps.length) : ∀ p ∈ ps, p.body.tokens.isSome := by
  refine tokens_of_parts hps (s := start) hout rfl rfl (itemsOf_eq_some_iff.mp hitems) ?_
  rw [List.length_cons, hlen]
  exact (Nat.add_comm _ _).trans (congrArg (· + ps.length) (Nat.zero_add 1).symm)

/-- The `=` of the items of a text. -/
theorem gains_of_items {t : List Char} {items : List (List Tok)} (h : itemsOf t = some items) :
    gains .out t = (items.map eqs).sum := by
  have hread := finish_eqs (itemsOf_eq_some_iff.mp h)
  rw [eqsOf_run] at hread
  simp only [List.map_cons, List.sum_cons] at hread
  have hnil : eqs [] = 0 := rfl
  have hstart : eqsOf start = 0 := rfl
  rw [hnil, hstart] at hread
  rw [Nat.zero_add, Nat.zero_add] at hread
  exact hread.symm

/-! ## Words and values -/

theorem value_blank (toks : List Tok) : value (.ch ' ' :: toks) = value toks := by
  have hword : word (.ch ' ' :: toks) = word toks := by
    have hstrip : strip (.ch ' ' :: toks) = strip toks := by
      rw [strip, List.dropWhile_cons_of_pos (by rfl)]
      rfl
    rw [word, hstrip]
    rfl
  unfold value
  rw [hword]
  simp [joined]

theorem dropWhile_chars {w : List Char} (hw : ∀ c ∈ w, wordChar c = true) :
    (w.map Tok.ch).dropWhile isBlank = w.map .ch := by
  cases w with
  | nil => rfl
  | cons c w =>
    have hc : isBlank (.ch c) = false := by
      have hne : c ≠ ' ' := by
        rintro rfl
        exact absurd (hw _ List.mem_cons_self) (by decide)
      simp [isBlank, hne]
    rw [List.map_cons, List.dropWhile_cons_of_neg (by simp [hc])]

theorem strip_chars {w : List Char} (hw : ∀ c ∈ w, wordChar c = true) :
    strip (w.map .ch) = w.map .ch := by
  have hrev : ∀ c ∈ w.reverse, wordChar c = true := fun c hc => hw c (List.mem_reverse.mp hc)
  rw [strip, dropWhile_chars hw, ← List.map_reverse, dropWhile_chars hrev, List.map_reverse,
    List.reverse_reverse]

theorem word_chars {w : List Char} (hw : Word w) : word (w.map .ch) = some w := by
  have hne : w.map Tok.ch ≠ [] := by simpa using hw.1
  rw [word, strip_chars hw.2, if_neg hne]
  have hmap := mapM_map (g := Tok.ch) (k := id) (l := w)
    (f := fun | .ch c => if wordChar c then some c else none | .lit _ => none)
    fun c hc => by simp [hw.2 c hc]
  rw [List.map_id] at hmap
  exact hmap

theorem word_blank_chars {w : List Char} (hw : Word w) :
    word (.ch ' ' :: w.map .ch) = some w := by
  have hstrip : strip (.ch ' ' :: w.map .ch) = strip (w.map .ch) := by
    rw [strip, List.dropWhile_cons_of_pos (by rfl)]
    rfl
  have hword := word_chars hw
  unfold word at hword ⊢
  rw [hstrip]
  exact hword

theorem value_chars {w : List Char} (hw : Word w) : value (w.map .ch) = some (.word w) := by
  unfold value
  rw [word_chars hw, if_neg (by simp)]
  rfl

theorem splitEq_name {name : List Char} (hname : '=' ∉ name) (toks : List Tok) :
    splitEq (name.map .ch ++ .ch '=' :: toks) = some (name.map .ch, toks) := by
  induction name with
  | nil => rfl
  | cons c name ih =>
    rw [List.mem_cons, not_or] at hname
    have hc : Tok.ch c ≠ .ch '=' := fun h => hname.1 (Tok.ch.inj h).symm
    rw [List.map_cons, List.cons_append, splitEq, if_neg hc, ih hname.2]
    rfl

/-- The value of a text on its own. -/
def Body.value (b : Body) : Option Value := b.tokens.bind SqlRows.value

/-- A text without its quote and without backslashes is one value. -/
theorem value_plain {q : Char} (hq : isQuote q = true) {t : List Char}
    (ht : ∀ c ∈ t, c ≠ '\\' ∧ c ≠ q) : (Body.quoted q t).value = some (.str t) := by
  have hrun : ∀ s : Lexer, s.mode = .inside q → run s t = { s with cur := s.cur ++ t } := by
    induction t with
    | nil => simp
    | cons c t ih =>
      intro s hs
      obtain ⟨hc, ht⟩ := List.forall_mem_cons.mp ht
      have hrest := ih ht { s with cur := s.cur ++ [c] } hs
      rw [run_cons, step_inside hs hc.1 hc.2, hrest]
      simp
  have hback : q ≠ '\\' := by
    rintro rfl
    exact absurd hq (by decide)
  have hread : read (q :: (t ++ [q])) = some [[.lit t]] := by
    rw [read_eq, run_cons, step_open rfl hq, run_append, hrun _ rfl, run_cons,
      step_close rfl hback, run_nil, finish_eq]
    simp [isClosed, soFar, start]
  have htoks : (Body.quoted q t).tokens = some [.lit t] := by
    rw [Body.tokens, hread]
  rw [Body.value, htoks]
  simp [SqlRows.value, joined]

theorem value_item {e : Entry} (h : e.val.tokens.isSome) :
    SqlRows.value e.valPart.item = e.val.value := by
  obtain ⟨toks, htoks⟩ := Option.isSome_iff_exists.mp h
  have hitem : e.valPart.item = .ch ' ' :: toks := by
    simp [Part.item, Entry.valPart, htoks]
  rw [hitem, value_blank, Body.value, htoks]
  rfl

theorem assignment_item {e : Entry} (hname : Word e.name) (h : e.upd.tokens.isSome) :
    assignment e.updPart.item = e.upd.value.map (e.name, ·) := by
  obtain ⟨toks, htoks⟩ := Option.isSome_iff_exists.mp h
  have hitem : e.updPart.item = .ch ' ' :: (e.name.map .ch ++ .ch '=' :: toks) := by
    simp [Part.item, Entry.updPart, htoks]
  have hsplit : splitEq e.updPart.item = some (.ch ' ' :: e.name.map .ch, toks) := by
    have hblank : Tok.ch ' ' ≠ .ch '=' := by decide
    rw [hitem, splitEq, if_neg hblank, splitEq_name (word_eq hname)]
    rfl
  unfold assignment
  rw [hsplit, Option.bind_eq_bind, Option.bind_some]
  simp only [word_blank_chars hname, Body.value, htoks, Option.bind_some]
  cases SqlRows.value toks <;> rfl

theorem readWords_cols {es : List Entry} (hok : ∀ e ∈ es, e.Ok) :
    readWords (partsText (es.map Entry.colPart)) = some (es.map Entry.col) := by
  have hparts : ∀ p ∈ es.map Entry.colPart, p.Ok ∧ p.body.tokens.isSome := by
    intro p hp
    obtain ⟨e, he, rfl⟩ := List.mem_map.mp hp
    exact ⟨(hok e he).colPart, rfl⟩
  rw [readWords, itemsOf_parts (fun p hp => (hparts p hp).1) fun p hp => (hparts p hp).2,
    Option.bind_some, List.map_map]
  exact mapM_map fun e he => word_blank_chars (hok e he).col

/-! ## Agreement -/

/-- The three texts. -/
structure Texts where
  cols : List Char
  vals : List Char
  extra : List Char

def textsOf (es : List Entry) : Texts where
  cols := partsText (es.map Entry.colPart)
  vals := partsText (es.map Entry.valPart)
  extra := partsText (es.map Entry.updPart)

/-- Distinct columns of the table, one value for each, and for each an assignment
of the same value. -/
def Agrees (fields : List (List Char)) (t : Texts) : Prop :=
  ∃ names values assigns, readWords t.cols = some names ∧ readValues t.vals = some values ∧
    readAssignments t.extra = some assigns ∧ names.Nodup ∧ (∀ name ∈ names, name ∈ fields) ∧
    values.length = names.length ∧ assigns.Perm (names.zip values)

/-- Two texts that are one and the same value. -/
def SameValue (v u : Body) : Prop := ∃ x, v.value = some x ∧ u.value = some x

section

variable {fields : List (List Char)} {es : List Entry}

theorem isSome_of_value {b : Body} {x : Value} (h : b.value = some x) : b.tokens.isSome := by
  obtain ⟨toks, htoks, -⟩ := Option.bind_eq_some_iff.mp h
  rw [htoks]
  rfl

/-- Entries with the same values on both sides agree. -/
theorem agrees_of_same (hok : ∀ e ∈ es, e.Ok) (hname : ∀ e ∈ es, e.name = e.col)
    (hnodup : (es.map Entry.col).Nodup) (hfields : ∀ e ∈ es, e.col ∈ fields)
    (hsame : ∀ e ∈ es, SameValue e.val e.upd) : Agrees fields (textsOf es) := by
  have hvals : ∀ p ∈ es.map Entry.valPart, p.Ok ∧ p.body.tokens.isSome := by
    intro p hp
    obtain ⟨e, he, rfl⟩ := List.mem_map.mp hp
    obtain ⟨x, hx, -⟩ := hsame e he
    exact ⟨(hok e he).valPart, isSome_of_value hx⟩
  have hupds : ∀ p ∈ es.map Entry.updPart, p.Ok ∧ p.body.tokens.isSome := by
    intro p hp
    obtain ⟨e, he, rfl⟩ := List.mem_map.mp hp
    obtain ⟨x, -, hx⟩ := hsame e he
    exact ⟨(hok e he).updPart, isSome_of_value hx⟩
  have hget : ∀ e ∈ es, e.val.value = some (e.val.value.getD (.word [])) ∧
      e.upd.value = some (e.val.value.getD (.word [])) := by
    intro e he
    obtain ⟨x, hv, hu⟩ := hsame e he
    rw [hv, hu]
    exact ⟨rfl, rfl⟩
  refine ⟨es.map Entry.col, es.map fun e => e.val.value.getD (.word []),
    es.map fun e => (e.col, e.val.value.getD (.word [])), readWords_cols hok, ?_, ?_, hnodup, ?_,
    by rw [List.length_map, List.length_map], ?_⟩
  · rw [readValues, textsOf, itemsOf_parts (fun p hp => (hvals p hp).1) fun p hp => (hvals p hp).2,
      Option.bind_some, List.map_map]
    refine mapM_map fun e he => ?_
    have htoks := (hvals _ (List.mem_map_of_mem he)).2
    exact (value_item htoks).trans (hget e he).1
  · rw [readAssignments, textsOf,
      itemsOf_parts (fun p hp => (hupds p hp).1) fun p hp => (hupds p hp).2,
      Option.bind_some, List.map_map]
    refine mapM_map fun e he => ?_
    have htoks := (hupds _ (List.mem_map_of_mem he)).2
    refine (assignment_item (hok e he).name htoks).trans ?_
    rw [(hget e he).2, hname e he]
    rfl
  · intro name hmem
    obtain ⟨e, he, rfl⟩ := List.mem_map.mp hmem
    exact hfields e he
  · rw [List.zip_map']

/-- What the texts read as, where they agree. -/
structure Reads (es : List Entry) (valItems updItems : List (List Tok)) : Prop where
  vals : itemsOf (partsText (es.map Entry.valPart)) = some valItems
  upds : itemsOf (partsText (es.map Entry.updPart)) = some updItems
  valLength : valItems.length = es.length
  updLength : updItems.length = es.length
  values : ∀ item ∈ valItems, ∃ v, value item = some v
  assigns : ∀ item ∈ updItems, ∃ a, assignment item = some a

theorem reads_of_agrees (hok : ∀ e ∈ es, e.Ok) (h : Agrees fields (textsOf es)) :
    ∃ valItems updItems, Reads es valItems updItems := by
  obtain ⟨names, values, assigns, hnames, hvalues, hassigns, -, -, hlen, hperm⟩ := h
  obtain rfl : es.map Entry.col = names := Option.some.inj ((readWords_cols hok).symm.trans hnames)
  obtain ⟨valItems, hvals, hvalues⟩ := Option.bind_eq_some_iff.mp hvalues
  obtain ⟨updItems, hupds, hassigns⟩ := Option.bind_eq_some_iff.mp hassigns
  rw [List.length_map] at hlen
  have hlen' : assigns.length = es.length := by
    rw [hperm.length_eq, List.length_zip, List.length_map, hlen, Nat.min_self]
  refine ⟨valItems, updItems, hvals, hupds, ?_, ?_, fun item hitem => ?_, fun item hitem => ?_⟩
  · rw [← length_of_mapM hvalues, hlen]
  · rw [← length_of_mapM hassigns, hlen']
  · obtain ⟨v, -, hv⟩ := mem_mapM hvalues hitem
    exact ⟨v, hv⟩
  · obtain ⟨a, -, ha⟩ := mem_mapM hassigns hitem
    exact ⟨a, ha⟩

theorem le_sum_of_forall {α : Type*} {f : α → Nat} {l : List α} (h : ∀ x ∈ l, 1 ≤ f x) :
    l.length ≤ (l.map f).sum := by
  induction l with
  | nil => exact Nat.le_refl _
  | cons x l ih =>
    obtain ⟨hx, h⟩ := List.forall_mem_cons.mp h
    have hrest := ih h
    rw [List.length_cons, List.map_cons, List.sum_cons]
    omega

theorem sum_eq_zero_of_forall {α : Type*} {f : α → Nat} {l : List α} (h : ∀ x ∈ l, f x = 0) :
    (l.map f).sum = 0 := by
  induction l with
  | nil => rfl
  | cons x l ih =>
    obtain ⟨hx, h⟩ := List.forall_mem_cons.mp h
    rw [List.map_cons, List.sum_cons, hx, ih h]

/-- Where the texts are quoted alike in values and in assignments, every part begins
outside: an `=` stands in each of the assignments and in none of the values, so that
as many names are read outside as there are assignments. -/
theorem outside_of_read (hok : ∀ e ∈ es, e.Ok) (hpar : ∀ e ∈ es, Parallel e.val e.upd)
    {valItems updItems : List (List Tok)} (h : Reads es valItems updItems) :
    Outside .out (es.map Entry.valPart) ∧ Outside .out (es.map Entry.updPart) := by
  obtain ⟨hgains, hout⟩ := lockstep_run hok hpar (m := .out) rfl
  have hvals : gains .out (partsText (es.map Entry.valPart)) = 0 := by
    rw [gains_of_items h.vals]
    refine sum_eq_zero_of_forall fun item hitem => ?_
    obtain ⟨v, hv⟩ := h.values item hitem
    exact eqs_of_value hv
  have hupds : es.length ≤ gains .out (partsText (es.map Entry.updPart)) := by
    rw [gains_of_items h.upds, ← h.updLength]
    refine le_sum_of_forall fun item hitem => ?_
    obtain ⟨a, ha⟩ := h.assigns item hitem
    exact eqs_of_assignment ha
  obtain ⟨hle, hall⟩ := outs_le .out (es.map Entry.valPart)
  rw [List.length_map] at hle hall
  have hvalOut := hall (by omega)
  exact ⟨hvalOut, hout hvalOut⟩

/-- Texts that agree and whose parts begin outside hold the same value in each part. -/
theorem same_of_agrees (hok : ∀ e ∈ es, e.Ok) (hname : ∀ e ∈ es, e.name = e.col)
    (hvalOut : Outside .out (es.map Entry.valPart))
    (hupdOut : Outside .out (es.map Entry.updPart)) (h : Agrees fields (textsOf es)) :
    (es.map Entry.col).Nodup ∧ (∀ e ∈ es, e.col ∈ fields) ∧
      ∀ e ∈ es, SameValue e.val e.upd := by
  obtain ⟨valItems, updItems, hreads⟩ := reads_of_agrees hok h
  obtain ⟨names, values, assigns, hnames, hvalues, hassigns, hnodup, hfields, hlen, hperm⟩ := h
  obtain rfl : es.map Entry.col = names := Option.some.inj ((readWords_cols hok).symm.trans hnames)
  refine ⟨hnodup, fun e he => hfields _ (List.mem_map_of_mem he), ?_⟩
  have hvalOk : ∀ p ∈ es.map Entry.valPart, p.Ok := by
    intro p hp
    obtain ⟨e, he, rfl⟩ := List.mem_map.mp hp
    exact (hok e he).valPart
  have hupdOk : ∀ p ∈ es.map Entry.updPart, p.Ok := by
    intro p hp
    obtain ⟨e, he, rfl⟩ := List.mem_map.mp hp
    exact (hok e he).updPart
  have hvalToks := tokens_of_items hvalOk hvalOut hreads.vals
    (hreads.valLength.trans (List.length_map ..).symm)
  have hupdToks := tokens_of_items hupdOk hupdOut hreads.upds
    (hreads.updLength.trans (List.length_map ..).symm)
  have hvalItems : valItems = (es.map Entry.valPart).map Part.item :=
    Option.some.inj (hreads.vals.symm.trans (itemsOf_parts hvalOk hvalToks))
  have hupdItems : updItems = (es.map Entry.updPart).map Part.item :=
    Option.some.inj (hreads.upds.symm.trans (itemsOf_parts hupdOk hupdToks))
  have hval : ∀ e ∈ es, ∃ x, e.val.value = some x := by
    intro e he
    have hmem : e.valPart.item ∈ valItems := by
      rw [hvalItems]
      exact List.mem_map_of_mem (List.mem_map_of_mem he)
    obtain ⟨x, hx⟩ := hreads.values _ hmem
    rw [value_item (hvalToks _ (List.mem_map_of_mem he))] at hx
    exact ⟨x, hx⟩
  have hupd : ∀ e ∈ es, ∃ x, e.upd.value = some x := by
    intro e he
    have hmem : e.updPart.item ∈ updItems := by
      rw [hupdItems]
      exact List.mem_map_of_mem (List.mem_map_of_mem he)
    obtain ⟨a, ha⟩ := hreads.assigns _ hmem
    rw [assignment_item (hok e he).name (hupdToks _ (List.mem_map_of_mem he))] at ha
    obtain ⟨x, hx, -⟩ := Option.map_eq_some_iff.mp ha
    exact ⟨x, hx⟩
  have hvalues' : values = es.map fun e => e.val.value.getD (.word []) := by
    refine Option.some.inj (hvalues.symm.trans ?_)
    rw [readValues, textsOf, hreads.vals, Option.bind_some, hvalItems, List.map_map]
    refine mapM_map fun e he => ?_
    obtain ⟨x, hx⟩ := hval e he
    refine (value_item (hvalToks _ (List.mem_map_of_mem he))).trans ?_
    rw [hx]
    rfl
  have hassigns' : assigns = es.map fun e => (e.name, e.upd.value.getD (.word [])) := by
    refine Option.some.inj (hassigns.symm.trans ?_)
    rw [readAssignments, textsOf, hreads.upds, Option.bind_some, hupdItems, List.map_map]
    refine mapM_map fun e he => ?_
    obtain ⟨x, hx⟩ := hupd e he
    refine (assignment_item (hok e he).name (hupdToks _ (List.mem_map_of_mem he))).trans ?_
    rw [hx]
    rfl
  rw [hvalues', hassigns', List.zip_map'] at hperm
  intro e he
  obtain ⟨x, hx⟩ := hval e he
  obtain ⟨y, hy⟩ := hupd e he
  have hmem := hperm.subset (List.mem_map_of_mem he)
  obtain ⟨e', he', heq⟩ := List.mem_map.mp hmem
  -- the columns are distinct, so that the value is that of the same entry
  have hcol : e'.col = e.col := (congrArg Prod.fst heq).trans (hname e he)
  obtain rfl : e' = e := List.inj_on_of_nodup_map hnodup he' he hcol
  have hvalue : e'.val.value.getD (.word []) = e'.upd.value.getD (.word []) :=
    congrArg Prod.snd heq
  rw [hx, hy, Option.getD_some, Option.getD_some] at hvalue
  rw [← hvalue] at hy
  exact ⟨x, hx, hy⟩

/-- **Agreement.** Texts whose parts begin outside of literals agree exactly when their
columns are distinct columns of the table and each part holds the same value in both. -/
theorem agrees_iff (hok : ∀ e ∈ es, e.Ok) (hname : ∀ e ∈ es, e.name = e.col)
    (hvalOut : Outside .out (es.map Entry.valPart))
    (hupdOut : Outside .out (es.map Entry.updPart)) :
    Agrees fields (textsOf es) ↔ (es.map Entry.col).Nodup ∧ (∀ e ∈ es, e.col ∈ fields) ∧
      ∀ e ∈ es, SameValue e.val e.upd :=
  ⟨same_of_agrees hok hname hvalOut hupdOut,
    fun ⟨hnodup, hfields, hsame⟩ => agrees_of_same hok hname hnodup hfields hsame⟩

/-- The same for texts that are quoted alike in values and in assignments. -/
theorem agrees_iff_of_parallel (hok : ∀ e ∈ es, e.Ok) (hname : ∀ e ∈ es, e.name = e.col)
    (hpar : ∀ e ∈ es, Parallel e.val e.upd) :
    Agrees fields (textsOf es) ↔ (es.map Entry.col).Nodup ∧ (∀ e ∈ es, e.col ∈ fields) ∧
      ∀ e ∈ es, SameValue e.val e.upd := by
  constructor
  · intro h
    obtain ⟨valItems, updItems, hreads⟩ := reads_of_agrees hok h
    obtain ⟨hvalOut, hupdOut⟩ := outside_of_read hok hpar hreads
    exact same_of_agrees hok hname hvalOut hupdOut h
  · rintro ⟨hnodup, hfields, hsame⟩
    exact agrees_of_same hok hname hnodup hfields hsame

theorem cols_of_agrees (hok : ∀ e ∈ es, e.Ok) (h : Agrees fields (textsOf es)) :
    ∀ e ∈ es, e.col ∈ fields := by
  obtain ⟨names, values, assigns, hnames, -, -, -, hfields, -, -⟩ := h
  obtain rfl : es.map Entry.col = names := Option.some.inj ((readWords_cols hok).symm.trans hnames)
  exact fun e he => hfields _ (List.mem_map_of_mem he)

theorem sameValue_word {w w' : List Char} (hw : Word w) (hw' : Word w') :
    SameValue (.word w) (.word w') ↔ w = w' := by
  have hvalue : ∀ {w : List Char}, Word w → (Body.word w).value = some (.word w) := fun h =>
    value_chars h
  unfold SameValue
  rw [hvalue hw, hvalue hw']
  constructor
  · rintro ⟨x, hx, hx'⟩
    obtain rfl := Option.some.inj hx
    exact (Value.word.inj (Option.some.inj hx')).symm
  · rintro rfl
    exact ⟨_, rfl, rfl⟩

end

end Base.SqlRows
