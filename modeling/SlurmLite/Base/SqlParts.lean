import SlurmLite.Base.SqlItems

/-!
# Parts of a query text

A list in a query text that is built of parts, each of which begins with a comma; a part
is a word or a text between quotes as it is, with or without a name and an `=` before it.

* **Places** (`modeRun`, `gains`): where the reader stands after a text, and how many `=`
  it has read outside of literals.
* **Reading on** (`run_attach`): a text is read the same whatever was read before.
* **Parts** (`finish_parts`, `tokens_of_parts`): a text whose parts each begin outside of
  literals is read part by part.
-/

namespace Base.SqlRows

open Base.SqlItems
open Base.SqlValues (unescape)

/-! ## Places -/

def outsideMode (c : Char) : Mode := if isQuote c then .inside c else .out

/-- The place after a character. -/
def modeStep : Mode → Char → Mode
  | .out, c => outsideMode c
  | .inside q, c => if c = '\\' then .escape q else if c = q then .quote q else .inside q
  | .escape q, _ => .inside q
  | .quote q, c => if c = q then .inside q else outsideMode c

def modeRun (m : Mode) (t : List Char) : Mode := t.foldl modeStep m

/-- Outside of literals, or behind the quote that ends one. -/
def isClosed : Mode → Bool
  | .out => true
  | .quote _ => true
  | .inside _ => false
  | .escape _ => false

/-- The quotes of a place are quotes. -/
def isQuoted : Mode → Bool
  | .out => true
  | .inside q => isQuote q
  | .escape q => isQuote q
  | .quote q => isQuote q

/-- Whether a character is read outside. -/
def readsOut : Mode → Char → Bool
  | .out, _ => true
  | .quote q, c => c ≠ q
  | .inside _, _ => false
  | .escape _, _ => false

/-- The `=` outside of literals that a text adds. -/
def gains : Mode → List Char → Nat
  | _, [] => 0
  | m, c :: t => (if c = '=' ∧ readsOut m c then 1 else 0) + gains (modeStep m c) t

def eqs (toks : List Tok) : Nat := toks.count (.ch '=')

/-- The `=` of all items. -/
def eqsOf (s : Lexer) : Nat := (s.items.map eqs).sum + eqs s.item

theorem outside_mode (s : Lexer) (c : Char) : (outside s c).mode = outsideMode c := by
  unfold outside outsideMode
  split
  · rfl
  · split <;> rfl

theorem step_mode (s : Lexer) (c : Char) : (step s c).mode = modeStep s.mode c := by
  unfold step
  cases hm : s.mode with
  | out => exact outside_mode s c
  | inside q =>
    simp only [modeStep]
    split
    · rfl
    · split
      · rfl
      · rfl
  | escape q => rfl
  | quote q =>
    simp only [modeStep]
    split
    · rfl
    · exact outside_mode _ c

theorem run_mode (s : Lexer) (t : List Char) : (run s t).mode = modeRun s.mode t := by
  induction t generalizing s with
  | nil => rfl
  | cons c t ih => rw [run_cons, ih, step_mode]; rfl

theorem eqs_append (u v : List Tok) : eqs (u ++ v) = eqs u + eqs v := List.count_append

theorem eqs_lit (v : List Char) : eqs [.lit v] = 0 := by
  simp [eqs]

theorem eqsOf_outside (s : Lexer) (c : Char) :
    eqsOf (outside s c) = eqsOf s + if c = '=' then 1 else 0 := by
  unfold outside
  by_cases hq : isQuote c = true
  · have hne : c ≠ '=' := by rintro rfl; exact absurd hq (by decide)
    rw [if_pos hq, if_neg hne]
    rfl
  · rw [if_neg hq]
    by_cases hcomma : c = ','
    · rw [if_pos hcomma, if_neg (by rw [hcomma]; decide)]
      simp [eqsOf, eqs]
    · rw [if_neg hcomma]
      by_cases he : c = '='
      · simp [eqsOf, eqs, he]
        omega
      · simp [eqsOf, eqs, he]

theorem eqsOf_step (s : Lexer) (c : Char) :
    eqsOf (step s c) = eqsOf s + if c = '=' ∧ readsOut s.mode c then 1 else 0 := by
  unfold step
  cases hm : s.mode with
  | out => simp [readsOut, eqsOf_outside]
  | inside q =>
    simp only [readsOut, Bool.false_eq_true, and_false, if_false]
    split
    · rfl
    · split <;> rfl
  | escape q => simp [readsOut, eqsOf]
  | quote q =>
    simp only [readsOut]
    by_cases hc : c = q
    · simp [hc, eqsOf]
    · rw [if_neg hc, eqsOf_outside]
      simp [hc, eqsOf, eqs_append, eqs_lit]

theorem eqsOf_run (s : Lexer) (t : List Char) : eqsOf (run s t) = eqsOf s + gains s.mode t := by
  induction t generalizing s with
  | nil => rfl
  | cons c t ih => rw [run_cons, ih, eqsOf_step, step_mode, gains, Nat.add_assoc]

theorem modeRun_append (m : Mode) (t u : List Char) :
    modeRun m (t ++ u) = modeRun (modeRun m t) u := List.foldl_append

theorem gains_append (m : Mode) (t u : List Char) :
    gains m (t ++ u) = gains m t + gains (modeRun m t) u := by
  induction t generalizing m with
  | nil => simp [gains, modeRun]
  | cons c t ih =>
    rw [List.cons_append, gains, gains, ih, Nat.add_assoc]
    rfl

theorem quoted_step {m : Mode} (h : isQuoted m) (c : Char) : isQuoted (modeStep m c) := by
  have hout : isQuoted (outsideMode c) := by
    unfold outsideMode
    split
    next hc => exact hc
    next => rfl
  cases m with
  | out => exact hout
  | inside q =>
    simp only [modeStep]
    split
    · exact h
    · split <;> exact h
  | escape q => exact h
  | quote q =>
    simp only [modeStep]
    split
    · exact h
    · exact hout

theorem quoted_run {m : Mode} (h : isQuoted m) (t : List Char) :
    isQuoted (modeRun m t) := by
  induction t generalizing m with
  | nil => exact h
  | cons c t ih => exact ih (quoted_step h c)

/-! ## Reading on -/

/-- The item so far, with the literal that ends it. -/
def soFar (s : Lexer) : List Tok :=
  match s.mode with
  | .quote _ => s.item ++ [.lit s.cur]
  | _ => s.item

/-- A reader that had items before. -/
def attach (item : List Tok) (items : List (List Tok)) (s : Lexer) : Lexer :=
  match s.items with
  | [] => { s with item := item ++ s.item, items := items }
  | first :: rest => { s with items := items ++ (item ++ first) :: rest }

section

variable {item : List Tok} {items : List (List Tok)}

@[simp] theorem attach_mode (s : Lexer) : (attach item items s).mode = s.mode := by
  unfold attach
  split <;> rfl

@[simp] theorem attach_cur (s : Lexer) : (attach item items s).cur = s.cur := by
  unfold attach
  split <;> rfl

theorem outside_attach (s : Lexer) (c : Char) :
    outside (attach item items s) c = attach item items (outside s c) := by
  obtain ⟨m, cur, it, its⟩ := s
  unfold outside
  by_cases hq : isQuote c = true
  · cases its <;> simp [attach, hq]
  · by_cases hc : c = ','
    · have hcomma : isQuote ',' = false := by decide
      cases its <;> simp [attach, hc, hcomma]
    · cases its <;> simp [attach, hq, hc]

theorem attach_lit (s : Lexer) (m : Mode) (v : List Char) :
    (⟨m, v, (attach item items s).item ++ [.lit v], (attach item items s).items⟩ : Lexer) =
      attach item items ⟨m, v, s.item ++ [.lit v], s.items⟩ := by
  obtain ⟨m', cur', it, its⟩ := s
  cases its <;> simp [attach]

theorem attach_with (s : Lexer) (m : Mode) (cur : List Char) :
    { attach item items s with mode := m, cur := cur } =
      attach item items { s with mode := m, cur := cur } := by
  obtain ⟨m', cur', it, its⟩ := s
  cases its <;> rfl

theorem step_attach (s : Lexer) (c : Char) :
    step (attach item items s) c = attach item items (step s c) := by
  unfold step
  rw [attach_mode, attach_cur]
  cases hm : s.mode with
  | out => exact outside_attach s c
  | inside q =>
    simp only
    split
    · exact attach_with s (.escape q) s.cur
    · split
      · exact attach_with s (.quote q) s.cur
      · exact attach_with s (.inside q) (s.cur ++ [c])
  | escape q => exact attach_with s (.inside q) (s.cur ++ unescape c)
  | quote q =>
    simp only
    split
    · exact attach_with s (.inside q) (s.cur ++ [c])
    · exact (congrArg (outside · c) (attach_lit s (.quote q) s.cur)).trans (outside_attach _ c)

theorem run_attach (s : Lexer) (t : List Char) :
    run (attach item items s) t = attach item items (run s t) := by
  induction t generalizing s with
  | nil => rfl
  | cons c t ih => rw [run_cons, run_cons, step_attach, ih]

end

theorem finish_eq (s : Lexer) :
    finish s = if isClosed s.mode then some (s.items ++ [soFar s]) else none := by
  unfold finish soFar
  cases s.mode <;> rfl

theorem length_outside (s : Lexer) (c : Char) :
    s.items.length ≤ (outside s c).items.length := by
  unfold outside
  split
  · exact Nat.le_refl _
  · split
    · simp
    · exact Nat.le_refl _

theorem length_step (s : Lexer) (c : Char) : s.items.length ≤ (step s c).items.length := by
  unfold step
  split
  · exact length_outside s c
  · split
    · exact Nat.le_refl _
    · split <;> exact Nat.le_refl _
  · exact Nat.le_refl _
  · split
    · exact Nat.le_refl _
    · exact length_outside { s with item := s.item ++ [.lit s.cur] } c

theorem length_run (s : Lexer) (t : List Char) : s.items.length ≤ (run s t).items.length := by
  induction t generalizing s with
  | nil => exact Nat.le_refl _
  | cons c t ih => exact (length_step s c).trans (ih _)

theorem run_plain {t : List Char} (ht : ∀ c ∈ t, isQuote c = false ∧ c ≠ ',') {s : Lexer}
    (h : s.mode = .out) : run s t = { s with item := s.item ++ t.map .ch } := by
  induction t generalizing s with
  | nil => simp
  | cons c t ih =>
    obtain ⟨hc, ht⟩ := List.forall_mem_cons.mp ht
    have hstep : step s c = { s with item := s.item ++ [.ch c] } := by
      simp [step, h, outside, hc.1, hc.2]
    have hrest := ih ht (s := { s with item := s.item ++ [.ch c] }) h
    rw [run_cons, hstep, hrest]
    simp

/-- A comma and a blank outside of literals begin an item. -/
theorem run_comma {s : Lexer} (hclosed : isClosed s.mode) (hquoted : isQuoted s.mode) :
    run s [',', ' '] = ⟨.out, s.cur, [.ch ' '], s.items ++ [soFar s]⟩ := by
  have hcomma : isQuote ',' = false := by decide
  have hblank : isQuote ' ' = false := by decide
  cases hm : s.mode with
  | out => simp [step, hm, outside, soFar, hcomma, hblank]
  | inside q => rw [hm] at hclosed; cases hclosed
  | escape q => rw [hm] at hclosed; cases hclosed
  | quote q =>
    have hq : ',' ≠ q := by
      rintro rfl
      rw [hm] at hquoted
      exact absurd hquoted (by decide)
    simp [step, hm, outside, soFar, hcomma, hblank, hq]

/-! ## Parts -/

/-- The characters of numbers and names. -/
def wordChar (c : Char) : Bool := c.isAlphanum || c = '_' || c = '.' || c = '-'

/-- What is printed for a value. -/
inductive Body where
  | word (w : List Char)
  | quoted (q : Char) (t : List Char)
deriving DecidableEq

def Body.text : Body → List Char
  | .word w => w
  | .quoted q t => q :: (t ++ [q])

/-- The tokens of a text that is one item on its own. -/
def Body.tokens : Body → Option (List Tok)
  | .word w => some (w.map .ch)
  | .quoted q t =>
    match read (q :: (t ++ [q])) with
    | some [toks] => some toks
    | _ => none

/-- A part of a list, with what stands before its value. -/
structure Part where
  lead : List Char
  body : Body

def Part.text (p : Part) : List Char := ',' :: ' ' :: (p.lead ++ p.body.text)

def partsText (ps : List Part) : List Char := ps.flatMap Part.text

/-- The item of a part. -/
def Part.item (p : Part) : List Tok :=
  .ch ' ' :: (p.lead.map .ch ++ p.body.tokens.getD [])

/-- Texts of numbers and names. -/
def Word (w : List Char) : Prop := w ≠ [] ∧ ∀ c ∈ w, wordChar c = true

instance (w : List Char) : Decidable (Word w) :=
  decidable_of_iff (w ≠ [] ∧ w.all wordChar = true) (by rw [Word, List.all_eq_true])

def Body.Ok : Body → Prop
  | .word w => Word w
  | .quoted q _ => isQuote q = true

/-- A part with a name and an `=`, or nothing, before its value. -/
structure Part.Ok (p : Part) : Prop where
  lead : ∀ c ∈ p.lead, wordChar c = true ∨ c = '='
  body : p.body.Ok

/-- Every part begins outside of literals. -/
def Outside : Mode → List Part → Prop
  | _, [] => True
  | m, p :: ps => isClosed m = true ∧ Outside (modeRun m p.text) ps

theorem plain_of_wordChar {c : Char} (h : wordChar c = true) : isQuote c = false ∧ c ≠ ',' := by
  constructor
  · by_contra hq
    rw [Bool.not_eq_false, isQuote, decide_eq_true_eq] at hq
    rcases hq with rfl | rfl <;> exact absurd h (by decide)
  · rintro rfl
    exact absurd h (by decide)

theorem Part.Ok.plain {p : Part} (h : p.Ok) : ∀ c ∈ p.lead, isQuote c = false ∧ c ≠ ',' := by
  intro c hc
  rcases h.lead c hc with hw | rfl
  · exact plain_of_wordChar hw
  · decide

theorem read_eq (t : List Char) : read t = finish (run start t) := rfl

/-- A text between quotes is read outside as on its own. -/
theorem run_quoted {s : Lexer} (h : s.mode = .out) {q : Char} (hq : isQuote q = true)
    (t : List Char) : run s (q :: t) = attach s.item s.items (run start (q :: t)) := by
  have hopen : step s q = attach s.item s.items (step start q) := by
    rw [step_open h hq, step_open rfl hq]
    simp [attach, start]
  rw [run_cons, run_cons, hopen, run_attach]

theorem run_lead {s : Lexer} (hclosed : isClosed s.mode) (hquoted : isQuoted s.mode) {p : Part}
    (hp : p.Ok) :
    run s p.text =
      run ⟨.out, s.cur, .ch ' ' :: p.lead.map .ch, s.items ++ [soFar s]⟩ p.body.text := by
  have hsplit : p.text = [',', ' '] ++ (p.lead ++ p.body.text) := rfl
  rw [hsplit, run_append, run_comma hclosed hquoted, run_append, run_plain hp.plain rfl]
  rfl

/-- What a part that begins outside does: one item more, and the value begun. -/
theorem run_part {s : Lexer} (hclosed : isClosed s.mode) (hquoted : isQuoted s.mode) {p : Part}
    (hp : p.Ok) {toks : List Tok} (htoks : p.body.tokens = some toks) :
    isClosed (run s p.text).mode ∧ (run s p.text).items = s.items ++ [soFar s] ∧
      soFar (run s p.text) = p.item := by
  have hitem : p.item = .ch ' ' :: (p.lead.map .ch ++ toks) := by
    rw [Part.item, htoks]
    rfl
  rw [run_lead hclosed hquoted hp, hitem]
  cases hb : p.body with
  | word w =>
    have hw : Word w := by
      have hok := hp.body
      rwa [hb] at hok
    rw [hb] at htoks
    obtain rfl := Option.some.inj htoks
    rw [Body.text, run_plain (fun c hc => plain_of_wordChar (hw.2 c hc)) rfl]
    exact ⟨rfl, rfl, rfl⟩
  | quoted q t =>
    have hq : isQuote q = true := by
      have hok := hp.body
      rwa [hb] at hok
    rw [hb, Body.tokens] at htoks
    rw [Body.text, run_quoted rfl hq]
    generalize hr : run start (q :: (t ++ [q])) = r
    rw [read_eq, hr, finish_eq] at htoks
    by_cases hc : isClosed r.mode = true
    · rw [if_pos hc] at htoks
      rcases hits : r.items with _ | ⟨first, rest⟩
      · rw [hits] at htoks
        obtain rfl := Option.some.inj htoks
        refine ⟨by rw [attach_mode]; exact hc, by simp [attach, hits], ?_⟩
        unfold soFar
        rw [attach_mode, attach_cur]
        cases r.mode <;> simp [attach, hits]
      · rw [hits] at htoks
        cases rest <;> cases htoks
    · rw [if_neg hc] at htoks
      cases htoks

/-- Parts that are items on their own are read part by part. -/
theorem finish_parts {ps : List Part} (hps : ∀ p ∈ ps, p.Ok)
    (htoks : ∀ p ∈ ps, p.body.tokens.isSome) {s : Lexer} (hclosed : isClosed s.mode)
    (hquoted : isQuoted s.mode) :
    finish (run s (partsText ps)) = some (s.items ++ soFar s :: ps.map Part.item) := by
  induction ps generalizing s with
  | nil =>
    rw [partsText, List.flatMap_nil, run_nil, finish_eq, if_pos hclosed]
    rfl
  | cons p ps ih =>
    obtain ⟨hp, hps⟩ := List.forall_mem_cons.mp hps
    obtain ⟨htok, htoks⟩ := List.forall_mem_cons.mp htoks
    obtain ⟨toks, htok⟩ := Option.isSome_iff_exists.mp htok
    obtain ⟨hclosed', hitems, hsoFar⟩ := run_part hclosed hquoted hp htok
    have hquoted' : isQuoted (run s p.text).mode := by
      rw [run_mode]
      exact quoted_run hquoted _
    have htext : partsText (p :: ps) = p.text ++ partsText ps := rfl
    rw [htext, run_append, ih hps htoks hclosed' hquoted', hitems, hsoFar, List.map_cons,
      List.append_assoc]
    rfl

theorem length_part {s : Lexer} (hclosed : isClosed s.mode) (hquoted : isQuoted s.mode)
    (p : Part) : s.items.length + 1 ≤ (run s p.text).items.length := by
  have hsplit : p.text = [',', ' '] ++ (p.lead ++ p.body.text) := rfl
  rw [hsplit, run_append, run_comma hclosed hquoted]
  refine Nat.le_trans ?_ (length_run _ _)
  simp

theorem length_parts {ps : List Part} {s : Lexer} (hout : Outside s.mode ps)
    (hquoted : isQuoted s.mode) :
    s.items.length + ps.length ≤ (run s (partsText ps)).items.length := by
  induction ps generalizing s with
  | nil => exact Nat.le_refl _
  | cons p ps ih =>
    have hrest := ih (s := run s p.text) (by rw [run_mode]; exact hout.2)
      (by rw [run_mode]; exact quoted_run hquoted _)
    have hfirst := length_part hout.1 hquoted p
    have htext : partsText (p :: ps) = p.text ++ partsText ps := rfl
    rw [htext, run_append, List.length_cons]
    omega

/-- Where every part begins outside and there is one item for each, each part is an
item on its own. -/
theorem tokens_of_parts {ps : List Part} (hps : ∀ p ∈ ps, p.Ok) {s : Lexer}
    (hout : Outside s.mode ps) (hclosed : isClosed s.mode) (hquoted : isQuoted s.mode)
    {its : List (List Tok)} (hread : finish (run s (partsText ps)) = some its)
    (hlen : its.length = s.items.length + 1 + ps.length) :
    ∀ p ∈ ps, p.body.tokens.isSome := by
  induction ps generalizing s with
  | nil => exact fun p hp => absurd hp List.not_mem_nil
  | cons p ps ih =>
    obtain ⟨hp, hps⟩ := List.forall_mem_cons.mp hps
    have htext : partsText (p :: ps) = p.text ++ partsText ps := rfl
    rw [htext, run_append] at hread
    have hout' : Outside (run s p.text).mode ps := by
      rw [run_mode]
      exact hout.2
    have hquoted' : isQuoted (run s p.text).mode := by
      rw [run_mode]
      exact quoted_run hquoted _
    have hend : isClosed (run (run s p.text) (partsText ps)).mode = true ∧
        its.length = (run (run s p.text) (partsText ps)).items.length + 1 := by
      rw [finish_eq] at hread
      split at hread
      next hc =>
        obtain rfl := Option.some.inj hread
        exact ⟨hc, by simp⟩
      next => cases hread
    have hclosed' : isClosed (run s p.text).mode = true := by
      cases ps with
      | nil => exact hend.1
      | cons p' ps => exact hout'.1
    have hfirst := length_part hclosed hquoted p
    have hrest := length_parts hout' hquoted'
    rw [List.length_cons] at hlen
    have hone : (run s p.text).items.length = s.items.length + 1 := by omega
    refine List.forall_mem_cons.mpr ⟨?_, ih hps hout' hclosed' hquoted' hread (by omega)⟩
    rw [run_lead hclosed hquoted hp] at hclosed' hone
    cases hb : p.body with
    | word w => rfl
    | quoted q t =>
      have hq : isQuote q = true := by
        have hok := hp.body
        rwa [hb] at hok
      rw [hb, Body.text, run_quoted rfl hq] at hclosed' hone
      rw [Body.tokens, read_eq]
      generalize run start (q :: (t ++ [q])) = r at hclosed' hone
      rw [attach_mode] at hclosed'
      rw [finish_eq, if_pos hclosed']
      rcases hits : r.items with _ | ⟨first, rest⟩
      · rfl
      · exfalso
        simp only [attach, hits, List.length_append, List.length_cons, List.length_nil] at hone
        omega

theorem finish_eqs {s : Lexer} {its : List (List Tok)} (h : finish s = some its) :
    (its.map eqs).sum = eqsOf s := by
  rw [finish_eq] at h
  split at h
  next =>
    obtain rfl := Option.some.inj h
    have hsoFar : eqs (soFar s) = eqs s.item := by
      unfold soFar
      cases s.mode <;> simp [eqs_append, eqs_lit]
    simp [eqsOf, hsoFar]
  next => cases h

/-- Parts that are items on their own, but for the last one, begin outside. -/
theorem outside_dropLast {ps : List Part} (hps : ∀ p ∈ ps, p.Ok)
    (htoks : ∀ p ∈ ps.dropLast, p.body.tokens.isSome) {m : Mode} (hclosed : isClosed m)
    (hquoted : isQuoted m) : Outside m ps := by
  induction ps generalizing m with
  | nil => trivial
  | cons p ps ih =>
    refine ⟨hclosed, ?_⟩
    cases ps with
    | nil => trivial
    | cons p' ps =>
      obtain ⟨hp, hps⟩ := List.forall_mem_cons.mp hps
      obtain ⟨htok, htoks⟩ := List.forall_mem_cons.mp htoks
      obtain ⟨toks, htok⟩ := Option.isSome_iff_exists.mp htok
      obtain ⟨hend, -, -⟩ := run_part (s := ⟨m, [], [], []⟩) hclosed hquoted hp htok
      rw [run_mode] at hend
      exact ih hps htoks hend (quoted_run hquoted _)

end Base.SqlRows
