import Mathlib
import RationalAlgebra.Expr.Parser
import RationalAlgebra.Proofs.Expr.Basic
import RationalAlgebra.Proofs.Expr.Spelling

/-!
# The grammar of expressions

The context-free grammar of expressions and equations over tokens, with the tree of each phrase, and
the proof that reading accepts exactly its texts. A phrase that is read is derivable because every
call of the reader consumes a phrase of its kind. Conversely a derivable phrase is read whole if
what follows cannot extend it, which at every level only its own operators can.

Main statements: `consumes_of_derives`, `parse_eq_ok_iff`, `parseEquation_eq_ok_iff` and
`parse_accepts_exactly`.
-/

namespace RationalAlgebra

open RationalAlgebra.Expr

/-! ## Phrases -/

/-- The tree of some signed terms: a single term is itself, several are a sum. -/
def Expr.joined : List Expr → Expr
  | [e] => e
  | es => .sum es

/-- The kinds of phrases, from the loosest to the tightest. -/
inductive Phrase where
  | expression
  | terms
  | term
  | power
  | signed
  | operand

/-- The tokens of a phrase, and its tree. Of a sequence of terms the tree is the sum of them with
their signs, also if there is only one. -/
inductive Derives : Phrase → List Token → Expr → Prop
  | expression {ts : List Token} {es : List Expr} (h : Derives .terms ts (.sum es)) :
      Derives .expression ts (joined es)
  | single {ts : List Token} {e : Expr} (h : Derives .term ts e) : Derives .terms ts (.sum [e])
  | plus {ts us : List Token} {es : List Expr} {e : Expr} (h : Derives .terms ts (.sum es))
      (hlast : Derives .term us e) : Derives .terms (ts ++ .symbol '+' :: us) (.sum (es ++ [e]))
  | minus {ts us : List Token} {es : List Expr} {e : Expr} (h : Derives .terms ts (.sum es))
      (hlast : Derives .term us e) :
      Derives .terms (ts ++ .symbol '-' :: us) (.sum (es ++ [.neg e]))
  | factor {ts : List Token} {e : Expr} (h : Derives .power ts e) : Derives .term ts e
  | times {ts us : List Token} {a b : Expr} (h : Derives .term ts a) (hlast : Derives .power us b) :
      Derives .term (ts ++ .symbol '*' :: us) (.prod [a, b])
  | divided {ts us : List Token} {a b : Expr} (h : Derives .term ts a)
      (hlast : Derives .power us b) :
      Derives .term (ts ++ .symbol '/' :: us) (.fraction a b)
  | base {ts : List Token} {e : Expr} (h : Derives .signed ts e) : Derives .power ts e
  | power {ts : List Token} {e : Expr} {n : Nat} (h : Derives .signed ts e) (hn : n ≤ 255) :
      Derives .power (ts ++ [.symbol '^', .number n]) (.prod (List.replicate n e))
  | negative {ts : List Token} {e : Expr} (h : Derives .signed ts e) :
      Derives .signed (.symbol '-' :: ts) (.neg e)
  | operand {ts : List Token} {e : Expr} (h : Derives .operand ts e) : Derives .signed ts e
  | brackets {ts : List Token} {e : Expr} (h : Derives .expression ts e) :
      Derives .operand (.symbol '(' :: ts ++ [.symbol ')']) e
  | number (n : Nat) : Derives .operand [.number n] (.const n)
  | name (x : String) : Derives .operand [.name x] (.var x)

/-- The tokens of an equation, and the difference of its two sides. An expression by itself is an
equation with zero. -/
inductive DerivesEquation : List Token → Expr → Prop
  | expression {ts : List Token} {e : Expr} (h : Derives .expression ts e) : DerivesEquation ts e
  | sides {ts us : List Token} {l r : Expr} (hl : Derives .expression ts l)
      (hr : Derives .expression us r) : DerivesEquation (ts ++ .symbol '=' :: us) (.sub l r)

/-- A text is that of a phrase of some kind, and the phrase has this tree. -/
def Denotes (k : Phrase) (text : String) (e : Expr) : Prop :=
  ∃ ts, Spells ts text.toList ∧ Derives k ts e

/-- A text is that of an equation with this difference. -/
def DenotesEquation (text : String) (e : Expr) : Prop :=
  ∃ ts, Spells ts text.toList ∧ DerivesEquation ts e

/-! ## One call of the reader -/

/-- What is read from the front of some lexemes is this value, and these lexemes follow. -/
def Reads {α : Type} {n : Nat} (answer : Option (Parsed α n)) (value : α) (rest : List Lexeme) :
    Prop :=
  ∃ p, answer = some p ∧ p.value = value ∧ p.rest = rest

/-- A parser that answers has used up a lexeme. This is what the inductions below are on. -/
theorem Reads.length_lt {α : Type} {n : Nat} {answer : Option (Parsed α n)} {value : α}
    {rest : List Lexeme} (h : Reads answer value rest) : rest.length < n := by
  obtain ⟨p, _, _, rfl⟩ := h
  exact p.short

namespace Grammar

/-- A term follows a plus or a minus. -/
theorem additive?_eq_some {t : Token} {f : Expr → Expr} (h : additive? t = some f) :
    (t = .symbol '+' ∧ f = id) ∨ (t = .symbol '-' ∧ f = Expr.neg) := by
  unfold additive? at h
  split at h
  · exact Or.inl ⟨rfl, (Option.some.inj h).symm⟩
  · exact Or.inr ⟨rfl, (Option.some.inj h).symm⟩
  · cases h

/-- A factor follows a star or a slash. -/
theorem multiplicative?_eq_some {t : Token} {f : Expr → Expr → Expr}
    (h : multiplicative? t = some f) :
    (t = .symbol '*' ∧ f = fun a b => .prod [a, b]) ∨ (t = .symbol '/' ∧ f = .fraction) := by
  unfold multiplicative? at h
  split at h
  · exact Or.inl ⟨rfl, (Option.some.inj h).symm⟩
  · exact Or.inr ⟨rfl, (Option.some.inj h).symm⟩
  · cases h

theorem joined_cons (e : Expr) (es : List Expr) :
    joined (e :: es) = if es.isEmpty then e else .sum (e :: es) := by
  cases es <;> rfl

/-- An expression is read as a term and the terms that follow. -/
theorem reads_expression_iff {input rest : List Lexeme} {e : Expr} :
    Reads (expression? input) e rest ↔
      ∃ a after, Reads (term? input) a after ∧ e = joined (a :: (addends after).value) ∧
        rest = (addends after).rest := by
  constructor
  · rintro ⟨p, hp, rfl, rfl⟩
    rw [expression?] at hp
    split at hp
    · cases hp
    · rename_i first hfirst
      cases hp
      exact ⟨first.value, first.rest, ⟨first, hfirst, rfl, rfl⟩, (joined_cons _ _).symm, rfl⟩
  · rintro ⟨a, after, ⟨first, hfirst, rfl, rfl⟩, rfl, rfl⟩
    rw [expression?, hfirst]
    exact ⟨_, rfl, (joined_cons _ _).symm, rfl⟩

/-- A term is read as a power and the factors that follow. -/
theorem reads_term_iff {input rest : List Lexeme} {e : Expr} :
    Reads (term? input) e rest ↔
      ∃ a after, Reads (power? input) a after ∧ e = (factors a after).value ∧
        rest = (factors a after).rest := by
  constructor
  · rintro ⟨p, hp, rfl, rfl⟩
    rw [term?] at hp
    split at hp
    · cases hp
    · rename_i first hfirst
      cases hp
      exact ⟨first.value, first.rest, ⟨first, hfirst, rfl, rfl⟩, rfl, rfl⟩
  · rintro ⟨a, after, ⟨first, hfirst, rfl, rfl⟩, rfl, rfl⟩
    rw [term?, hfirst]
    exact ⟨_, rfl, rfl, rfl⟩

/-- A power is a signed operand, raised if an exponent in range follows. -/
theorem reads_power {input rest : List Lexeme} {e : Expr} (h : Reads (power? input) e rest) :
    Reads (signed? input) e rest ∨
      ∃ a c d n, Reads (signed? input) a (⟨.symbol '^', c⟩ :: ⟨.number n, d⟩ :: rest) ∧ n ≤ 255 ∧
        e = .prod (List.replicate n a) := by
  obtain ⟨p, hp, rfl, rfl⟩ := h
  rw [power?, Option.map_eq_some_iff] at hp
  obtain ⟨first, hfirst, rfl⟩ := hp
  -- An exponent is read if a number follows the sign and is not too large; otherwise the sign is
  -- left.
  unfold withExponent
  split
  · rename_i a c n d rest hshort
    split
    · rename_i hn
      exact Or.inr ⟨a, c, d, n, ⟨_, hfirst, rfl, rfl⟩, hn, rfl⟩
    · exact Or.inl ⟨_, hfirst, rfl, rfl⟩
  · exact Or.inl ⟨_, hfirst, rfl, rfl⟩

/-- None of these characters comes next. -/
def Stops (symbols : List Char) (rest : List Lexeme) : Prop :=
  ∀ l ∈ rest.head?, ∀ c ∈ symbols, l.token ≠ .symbol c

/-- A base that no exponent follows is a power. -/
theorem reads_base {input rest : List Lexeme} {e : Expr} (h : Reads (signed? input) e rest)
    (hrest : Stops ['^'] rest) : Reads (power? input) e rest := by
  obtain ⟨first, hfirst, rfl, rfl⟩ := h
  rw [power?, hfirst]
  refine ⟨_, rfl, ?_⟩
  unfold withExponent
  split
  · rename_i a c n d rest hshort
    exact absurd rfl (hrest _ rfl '^' (by simp))
  · exact ⟨rfl, rfl⟩

/-- A base with its exponent is a power. -/
theorem reads_raised {input rest : List Lexeme} {e : Expr} {c d : List Char} {n : Nat}
    (h : Reads (signed? input) e (⟨.symbol '^', c⟩ :: ⟨.number n, d⟩ :: rest)) (hn : n ≤ 255) :
    Reads (power? input) (.prod (List.replicate n e)) rest := by
  obtain ⟨⟨a, after, hshort⟩, hfirst, rfl, hafter⟩ := h
  simp only at hafter
  subst hafter
  rw [power?, hfirst]
  refine ⟨_, rfl, ?_⟩
  simp only [withExponent]
  rw [if_pos (show n ≤ maxExponent from hn)]
  exact ⟨rfl, rfl⟩

/-- The ways to begin an operand with its signs. -/
theorem reads_signed {input rest : List Lexeme} {e : Expr} (h : Reads (signed? input) e rest) :
    (∃ n c, input = ⟨.number n, c⟩ :: rest ∧ e = .const n) ∨
      (∃ x c, input = ⟨.name x, c⟩ :: rest ∧ e = .var x) ∨
      (∃ a c after, input = ⟨.symbol '-', c⟩ :: after ∧ Reads (signed? after) a rest ∧ e = .neg a) ∨
      ∃ c d after, input = ⟨.symbol '(', c⟩ :: after ∧
        Reads (expression? after) e (⟨.symbol ')', d⟩ :: rest) := by
  obtain ⟨p, hp, rfl, rfl⟩ := h
  -- One case for each kind of first lexeme; the last are those no operand begins with.
  rw [signed?.eq_def] at hp
  split at hp
  · cases hp
  · rename_i n c after
    cases hp
    exact Or.inl ⟨n, c, rfl, rfl⟩
  · rename_i x c after
    cases hp
    exact Or.inr (Or.inl ⟨x, c, rfl, rfl⟩)
  · rename_i c after
    rw [Option.map_eq_some_iff] at hp
    obtain ⟨q, hq, rfl⟩ := hp
    exact Or.inr (Or.inr (Or.inl ⟨q.value, c, after, rfl, ⟨q, hq, rfl, rfl⟩, rfl⟩))
  · rename_i c after
    rw [Option.map_eq_some_iff] at hp
    obtain ⟨q, hq, rfl⟩ := hp
    obtain ⟨inner, hinner, hclose⟩ := Option.bind_eq_some_iff.1 hq
    unfold closing? at hclose
    split at hclose
    · rename_i a d rest hshort
      cases hclose
      exact Or.inr (Or.inr (Or.inr ⟨c, d, after, rfl, ⟨_, hinner, rfl, rfl⟩⟩))
    · cases hclose
  · cases hp

theorem reads_number (n : Nat) (c : List Char) (rest : List Lexeme) :
    Reads (signed? (⟨.number n, c⟩ :: rest)) (.const n) rest := by
  rw [signed?]
  exact ⟨_, rfl, rfl, rfl⟩

theorem reads_name (x : String) (c : List Char) (rest : List Lexeme) :
    Reads (signed? (⟨.name x, c⟩ :: rest)) (.var x) rest := by
  rw [signed?]
  exact ⟨_, rfl, rfl, rfl⟩

theorem reads_negative {after rest : List Lexeme} {e : Expr} (c : List Char)
    (h : Reads (signed? after) e rest) :
    Reads (signed? (⟨.symbol '-', c⟩ :: after)) (.neg e) rest := by
  obtain ⟨p, hp, rfl, rfl⟩ := h
  rw [signed?, hp]
  exact ⟨_, rfl, rfl, rfl⟩

/-- An expression in brackets is read with its brackets. -/
theorem reads_brackets {after rest : List Lexeme} {e : Expr} (c : List Char) {d : List Char}
    (h : Reads (expression? after) e (⟨.symbol ')', d⟩ :: rest)) :
    Reads (signed? (⟨.symbol '(', c⟩ :: after)) e rest := by
  obtain ⟨⟨a, after', hshort⟩, hp, rfl, hafter⟩ := h
  simp only at hafter
  subst hafter
  rw [signed?, hp]
  exact ⟨_, rfl, rfl, rfl⟩

/-- The terms behind the first end where no signed term follows; else they begin with one. -/
theorem addends_cases (input : List Lexeme) :
    ((addends input).value = [] ∧ (addends input).rest = input) ∨
      ∃ l after f e rest, input = l :: after ∧ additive? l.token = some f ∧
        Reads (term? after) e rest ∧ (addends input).value = f e :: (addends rest).value ∧
        (addends input).rest = (addends rest).rest := by
  rw [addends.eq_def]
  -- The loop ends where the input ends, where no sign follows, or where no term follows the sign;
  -- then nothing is used up.
  split
  · exact Or.inl ⟨rfl, rfl⟩
  · rename_i l after
    split
    · exact Or.inl ⟨rfl, rfl⟩
    · rename_i f hf
      split
      · exact Or.inl ⟨rfl, rfl⟩
      · rename_i next hnext
        exact Or.inr ⟨l, after, f, next.value, next.rest, rfl, hf, ⟨next, hnext, rfl, rfl⟩, rfl, rfl⟩

/-- Where no plus or minus follows, no term is read. -/
theorem addends_of_stops {input : List Lexeme} (h : Stops ['+', '-'] input) :
    (addends input).value = [] ∧ (addends input).rest = input := by
  rcases addends_cases input with hend | ⟨l, after, f, _, _, rfl, hf, _⟩
  · exact hend
  · rcases additive?_eq_some hf with ⟨hl, _⟩ | ⟨hl, _⟩
    · exact absurd hl (h l rfl '+' (by simp))
    · exact absurd hl (h l rfl '-' (by simp))

/-- A sign and a term behind it are read, and then the terms that follow. -/
theorem addends_cons {l : Lexeme} {after rest : List Lexeme} {f : Expr → Expr} {e : Expr}
    (hf : additive? l.token = some f) (h : Reads (term? after) e rest) :
    (addends (l :: after)).value = f e :: (addends rest).value ∧
      (addends (l :: after)).rest = (addends rest).rest := by
  obtain ⟨p, hp, rfl, rfl⟩ := h
  rw [addends]
  simp only [hf, hp, and_self]

/-- The factors behind the first end where no further factor follows; else they begin with one. -/
theorem factors_cases (acc : Expr) (input : List Lexeme) :
    ((factors acc input).value = acc ∧ (factors acc input).rest = input) ∨
      ∃ l after f e rest, input = l :: after ∧ multiplicative? l.token = some f ∧
        Reads (power? after) e rest ∧ (factors acc input).value = (factors (f acc e) rest).value ∧
        (factors acc input).rest = (factors (f acc e) rest).rest := by
  rw [factors.eq_def]
  -- As with terms, a sign without a factor behind it is left.
  split
  · exact Or.inl ⟨rfl, rfl⟩
  · rename_i l after
    split
    · exact Or.inl ⟨rfl, rfl⟩
    · rename_i f hf
      split
      · exact Or.inl ⟨rfl, rfl⟩
      · rename_i next hnext
        exact Or.inr ⟨l, after, f, next.value, next.rest, rfl, hf, ⟨next, hnext, rfl, rfl⟩, rfl, rfl⟩

/-- Where no star or slash follows, no factor is read. -/
theorem factors_of_stops (acc : Expr) {input : List Lexeme} (h : Stops ['*', '/'] input) :
    (factors acc input).value = acc ∧ (factors acc input).rest = input := by
  rcases factors_cases acc input with hend | ⟨l, after, f, _, _, rfl, hf, _⟩
  · exact hend
  · rcases multiplicative?_eq_some hf with ⟨hl, _⟩ | ⟨hl, _⟩
    · exact absurd hl (h l rfl '*' (by simp))
    · exact absurd hl (h l rfl '/' (by simp))

/-- A sign and a factor behind it are read, and then the factors that follow. -/
theorem factors_cons (acc : Expr) {l : Lexeme} {after rest : List Lexeme}
    {f : Expr → Expr → Expr} {e : Expr} (hf : multiplicative? l.token = some f)
    (h : Reads (power? after) e rest) :
    (factors acc (l :: after)).value = (factors (f acc e) rest).value ∧
      (factors acc (l :: after)).rest = (factors (f acc e) rest).rest := by
  obtain ⟨p, hp, rfl, rfl⟩ := h
  rw [factors]
  simp only [hf, hp, and_self]

/-! ## What is read is derivable -/

/-- Some lexemes begin with a phrase, and these lexemes follow it. -/
def Begins (k : Phrase) (input : List Lexeme) (e : Expr) (rest : List Lexeme) : Prop :=
  ∃ ls, input = ls ++ rest ∧ Derives k (ls.map Lexeme.token) e

/-- What a reader takes from the front of fewer lexemes than this is a phrase of its kind. -/
def SoundBelow (n : Nat) (k : Phrase)
    (read : (input : List Lexeme) → Option (Parsed Expr input.length)) : Prop :=
  ∀ input, input.length < n → ∀ e rest, Reads (read input) e rest → Begins k input e rest

variable {n : Nat}

/-- More terms behind a sequence of terms. -/
theorem SoundBelow.addends (hterm : SoundBelow n .term term?) {input : List Lexeme}
    (hlt : input.length < n) {ts : List Token} {es : List Expr}
    (h : Derives .terms ts (.sum es)) :
    ∃ ls, input = ls ++ (Grammar.addends input).rest ∧
      Derives .terms (ts ++ ls.map Lexeme.token) (.sum (es ++ (Grammar.addends input).value)) := by
  obtain ⟨m, hm⟩ : ∃ m, input.length = m := ⟨_, rfl⟩
  -- Each term that is read leaves a shorter input, which the induction is on.
  induction m using Nat.strong_induction_on generalizing input ts es with
  | _ m ih =>
    rcases addends_cases input with
      ⟨hvalue, hrest⟩ | ⟨l, after, f, e, rest, rfl, hf, hnext, hvalue, hrest⟩
    · refine ⟨[], by rw [hrest, List.nil_append], ?_⟩
      rw [hvalue, List.append_nil, List.map_nil, List.append_nil]
      exact h
    · -- One more term belongs to the phrase, and fewer lexemes are left behind it.
      have hafter : after.length < (l :: after).length := Nat.lt_succ_self _
      have hshort := hnext.length_lt.trans hafter
      obtain ⟨ls, rfl, hlast⟩ := hterm after (hafter.trans hlt) e rest hnext
      have hsum : Derives .terms (ts ++ l.token :: ls.map Lexeme.token) (.sum (es ++ [f e])) := by
        rcases additive?_eq_some hf with ⟨hl, rfl⟩ | ⟨hl, rfl⟩
        · rw [hl]
          exact Derives.plus h hlast
        · rw [hl]
          exact Derives.minus h hlast
      obtain ⟨ms, hms, hterms⟩ := ih rest.length (hm ▸ hshort) (hshort.trans hlt) hsum rfl
      refine ⟨l :: ls ++ ms, ?_, ?_⟩
      · rw [hrest, List.append_assoc, ← hms, List.cons_append]
      · rw [hvalue]
        simpa using hterms

/-- More powers behind a term. -/
theorem SoundBelow.factors (hpower : SoundBelow n .power power?) {input : List Lexeme}
    (hlt : input.length < n) {ts : List Token} {acc : Expr} (h : Derives .term ts acc) :
    ∃ ls, input = ls ++ (Grammar.factors acc input).rest ∧
      Derives .term (ts ++ ls.map Lexeme.token) (Grammar.factors acc input).value := by
  obtain ⟨m, hm⟩ : ∃ m, input.length = m := ⟨_, rfl⟩
  induction m using Nat.strong_induction_on generalizing input ts acc with
  | _ m ih =>
    rcases factors_cases acc input with
      ⟨hvalue, hrest⟩ | ⟨l, after, f, e, rest, rfl, hf, hnext, hvalue, hrest⟩
    · refine ⟨[], by rw [hrest, List.nil_append], ?_⟩
      rw [hvalue, List.map_nil, List.append_nil]
      exact h
    · -- One more factor belongs to the term, and fewer lexemes are left behind it.
      have hafter : after.length < (l :: after).length := Nat.lt_succ_self _
      have hshort := hnext.length_lt.trans hafter
      obtain ⟨ls, rfl, hlast⟩ := hpower after (hafter.trans hlt) e rest hnext
      have hproduct : Derives .term (ts ++ l.token :: ls.map Lexeme.token) (f acc e) := by
        rcases multiplicative?_eq_some hf with ⟨hl, rfl⟩ | ⟨hl, rfl⟩
        · rw [hl]
          exact Derives.times h hlast
        · rw [hl]
          exact Derives.divided h hlast
      obtain ⟨ms, hms, hterm⟩ := ih rest.length (hm ▸ hshort) (hshort.trans hlt) hproduct rfl
      refine ⟨l :: ls ++ ms, ?_, ?_⟩
      · rw [hrest, List.append_assoc, ← hms, List.cons_append]
      · rw [hvalue]
        simpa using hterm

/-- If terms are read rightly, expressions are. -/
theorem SoundBelow.expression (hterm : SoundBelow n .term term?) :
    SoundBelow n .expression expression? := by
  intro input hlt e rest h
  obtain ⟨a, after, hfirst, rfl, rfl⟩ := reads_expression_iff.1 h
  have hshort := hfirst.length_lt.trans hlt
  obtain ⟨ls, rfl, hderives⟩ := hterm input hlt a after hfirst
  obtain ⟨ms, hms, hterms⟩ := hterm.addends hshort (Derives.single hderives)
  refine ⟨ls ++ ms, ?_, ?_⟩
  · rw [List.append_assoc, ← hms]
  · rw [List.map_append]
    exact Derives.expression hterms

/-- If powers are read rightly, terms are. -/
theorem SoundBelow.term (hpower : SoundBelow n .power power?) : SoundBelow n .term term? := by
  intro input hlt e rest h
  obtain ⟨a, after, hfirst, rfl, rfl⟩ := reads_term_iff.1 h
  have hshort := hfirst.length_lt.trans hlt
  obtain ⟨ls, rfl, hderives⟩ := hpower input hlt a after hfirst
  obtain ⟨ms, hms, hterm⟩ := hpower.factors hshort (Derives.factor hderives)
  refine ⟨ls ++ ms, ?_, ?_⟩
  · rw [List.append_assoc, ← hms]
  · rw [List.map_append]
    exact hterm

/-- If signed operands are read rightly, powers are. -/
theorem SoundBelow.power (hsigned : SoundBelow n .signed signed?) :
    SoundBelow n .power power? := by
  intro input hlt e rest h
  rcases reads_power h with hbase | ⟨a, c, d, m, hbase, hm, rfl⟩
  · obtain ⟨ls, hls, hderives⟩ := hsigned input hlt e rest hbase
    exact ⟨ls, hls, Derives.base hderives⟩
  · obtain ⟨ls, hls, hderives⟩ := hsigned input hlt a _ hbase
    refine ⟨ls ++ [⟨.symbol '^', c⟩, ⟨.number m, d⟩], ?_, ?_⟩
    · rw [hls, List.append_assoc]
      rfl
    · rw [List.map_append]
      exact Derives.power hderives hm

/-- A signed operand consumes one lexeme before it calls any reader. -/
theorem SoundBelow.succ (hsigned : SoundBelow n .signed signed?)
    (hexpression : SoundBelow n .expression expression?) :
    SoundBelow (n + 1) .signed signed? := by
  intro input hlt e rest h
  -- Behind a minus or a bracket the input is shorter, so that both parsers may be used there.
  rcases reads_signed h with
    ⟨m, c, rfl, rfl⟩ | ⟨x, c, rfl, rfl⟩ | ⟨a, c, after, rfl, hinner, rfl⟩ |
    ⟨c, d, after, rfl, hinner⟩
  · exact ⟨[⟨.number m, c⟩], rfl, Derives.operand (Derives.number m)⟩
  · exact ⟨[⟨.name x, c⟩], rfl, Derives.operand (Derives.name x)⟩
  · obtain ⟨ls, rfl, hderives⟩ := hsigned after (Nat.lt_of_succ_lt_succ hlt) a rest hinner
    exact ⟨⟨.symbol '-', c⟩ :: ls, rfl, Derives.negative hderives⟩
  · obtain ⟨ls, rfl, hderives⟩ := hexpression after (Nat.lt_of_succ_lt_succ hlt) e _ hinner
    refine ⟨⟨.symbol '(', c⟩ :: ls ++ [⟨.symbol ')', d⟩], by simp, ?_⟩
    rw [List.map_append]
    exact Derives.operand (Derives.brackets hderives)

/-- All readers consume phrases, by induction on the number of lexemes. -/
theorem soundBelow_signed (n : Nat) : SoundBelow n .signed signed? := by
  induction n with
  | zero => exact fun input hlt => absurd hlt (Nat.not_lt_zero _)
  | succ n ih => exact ih.succ ih.power.term.expression

/-- What is read as an expression is one, and stands at the beginning of the input. -/
theorem begins_of_expression {input rest : List Lexeme} {e : Expr}
    (h : Reads (expression? input) e rest) : Begins .expression input e rest := by
  have hsound := (soundBelow_signed (input.length + 1)).power.term.expression
  exact hsound input (Nat.lt_succ_self _) e rest h

/-! ## What is derivable is read -/

/-- A token other than some symbols stops what only these extend. -/
theorem stops_cons {symbols : List Char} {t : Token} (h : ∀ c ∈ symbols, t ≠ .symbol c)
    (source : List Char) (rest : List Lexeme) : Stops symbols (⟨t, source⟩ :: rest) := by
  intro l hl c hc
  rw [List.head?_cons, Option.mem_some] at hl
  exact hl ▸ h c hc

/-- What stops more symbols stops fewer. -/
theorem Stops.mono {symbols symbols' : List Char} {rest : List Lexeme} (h : Stops symbols' rest)
    (hsub : symbols ⊆ symbols') : Stops symbols rest :=
  fun l hl c hc => h l hl c (hsub hc)

/-- Lexemes around a token, found from the tokens around it. -/
theorem exists_lexemes_of_append {ls : List Lexeme} {ts us : List Token} {t : Token}
    (h : ls.map Lexeme.token = ts ++ t :: us) :
    ∃ as c bs, ls = as ++ ⟨t, c⟩ :: bs ∧ as.map Lexeme.token = ts ∧ bs.map Lexeme.token = us := by
  obtain ⟨as, tail, rfl, has, htail⟩ := List.map_eq_append_iff.1 h
  obtain ⟨⟨_, c⟩, bs, rfl, rfl, hbs⟩ := List.map_eq_cons_iff.1 htail
  exact ⟨as, c, bs, rfl, has, hbs⟩

/-- Lexemes with these tokens are read as a phrase of this kind with this tree, whatever follows
that cannot extend it. A term and a sequence of terms are read together with the operators of their
own level behind them. -/
def Consumes (k : Phrase) (ts : List Token) (e : Expr) : Prop :=
  ∀ ls : List Lexeme, ls.map Lexeme.token = ts →
    -- What may follow a phrase without extending it depends on its kind.
    match k with
    | .expression =>
      ∀ rest, Stops ['^', '*', '/', '+', '-'] rest → Reads (expression? (ls ++ rest)) e rest
    | .terms =>
      ∀ es, e = .sum es → ∀ rest, Stops ['^', '*', '/'] rest →
        Reads (expression? (ls ++ rest)) (joined (es ++ (addends rest).value)) (addends rest).rest
    | .term =>
      ∀ rest, Stops ['^'] rest →
        Reads (term? (ls ++ rest)) (factors e rest).value (factors e rest).rest
    | .power => ∀ rest, Stops ['^'] rest → Reads (power? (ls ++ rest)) e rest
    | .signed | .operand => ∀ rest, Reads (signed? (ls ++ rest)) e rest

/-- A term that no factor follows is read by itself. -/
theorem Consumes.reads_term {ts : List Token} {e : Expr} (h : Consumes .term ts e)
    {ls rest : List Lexeme} (hls : ls.map Lexeme.token = ts) (hrest : Stops ['^', '*', '/'] rest) :
    Reads (term? (ls ++ rest)) e rest := by
  have hread := h ls hls rest (hrest.mono (by simp))
  obtain ⟨hvalue, hafter⟩ := factors_of_stops e (hrest.mono (by simp) : Stops ['*', '/'] rest)
  rwa [hvalue, hafter] at hread

/-- One more term behind a sequence of terms. -/
theorem Consumes.snoc {ts us : List Token} {es : List Expr} {e : Expr} {sign : Char}
    {f : Expr → Expr} (hf : additive? (.symbol sign) = some f)
    (hsign : ∀ c ∈ ['^', '*', '/'], Token.symbol sign ≠ .symbol c)
    (h : Consumes .terms ts (.sum es)) (hlast : Consumes .term us e) :
    Consumes .terms (ts ++ .symbol sign :: us) (.sum (es ++ [f e])) := by
  intro ls hls es' hes' rest hrest
  obtain ⟨as, c, bs, rfl, has, hbs⟩ := exists_lexemes_of_append hls
  obtain rfl := Expr.sum.inj hes'
  have hread := h as has es rfl _ (stops_cons hsign c (bs ++ rest))
  obtain ⟨hvalue, hafter⟩ := addends_cons (l := ⟨.symbol sign, c⟩) hf (hlast.reads_term hbs hrest)
  rw [hvalue, hafter] at hread
  rw [List.append_assoc, List.append_assoc]
  exact hread

/-- One more power behind a term. -/
theorem Consumes.snoc_factor {ts us : List Token} {a b : Expr} {sign : Char}
    {f : Expr → Expr → Expr} (hf : multiplicative? (.symbol sign) = some f)
    (hsign : ∀ c ∈ ['^'], Token.symbol sign ≠ .symbol c)
    (h : Consumes .term ts a) (hlast : Consumes .power us b) :
    Consumes .term (ts ++ .symbol sign :: us) (f a b) := by
  intro ls hls rest hrest
  obtain ⟨as, c, bs, rfl, has, hbs⟩ := exists_lexemes_of_append hls
  have hread := h as has _ (stops_cons hsign c (bs ++ rest))
  obtain ⟨hvalue, hafter⟩ :=
    factors_cons a (l := ⟨.symbol sign, c⟩) hf (hlast bs hbs rest hrest)
  rw [hvalue, hafter] at hread
  rw [List.append_assoc]
  exact hread

/-- Every derivable phrase is read. -/
theorem consumes_of_derives {k : Phrase} {ts : List Token} {e : Expr} (h : Derives k ts e) :
    Consumes k ts e := by
  induction h with
  | expression _ ih =>
    -- No sign follows, so no term is read behind those of the phrase.
    intro ls hls rest hrest
    have hread := ih ls hls _ rfl rest (hrest.mono (by simp))
    obtain ⟨hvalue, hafter⟩ := addends_of_stops (hrest.mono (by simp) : Stops ['+', '-'] rest)
    rwa [hvalue, hafter, List.append_nil] at hread
  | single _ ih =>
    intro ls hls es hes rest hrest
    obtain rfl := Expr.sum.inj hes
    exact reads_expression_iff.2 ⟨_, rest, ih.reads_term hls hrest, rfl, rfl⟩
  | plus _ _ ih ihlast => exact Consumes.snoc (f := id) rfl (by simp) ih ihlast
  | minus _ _ ih ihlast => exact Consumes.snoc rfl (by simp) ih ihlast
  | factor _ ih =>
    intro ls hls rest hrest
    exact reads_term_iff.2 ⟨_, rest, ih ls hls rest hrest, rfl, rfl⟩
  | times _ _ ih ihlast =>
    exact Consumes.snoc_factor (f := fun a b => .prod [a, b]) rfl (by simp) ih ihlast
  | divided _ _ ih ihlast => exact Consumes.snoc_factor rfl (by simp) ih ihlast
  | base _ ih =>
    intro ls hls rest hrest
    exact reads_base (ih ls hls rest) hrest
  | power _ hn ih =>
    intro ls hls rest _
    obtain ⟨as, c, bs, rfl, has, hbs⟩ := exists_lexemes_of_append hls
    obtain ⟨⟨_, d⟩, bs, rfl, rfl, hnil⟩ := List.map_eq_cons_iff.1 hbs
    obtain rfl := List.map_eq_nil_iff.1 hnil
    rw [List.append_assoc]
    exact reads_raised (ih as has _) hn
  | negative _ ih =>
    intro ls hls rest
    obtain ⟨⟨_, c⟩, bs, rfl, rfl, hbs⟩ := List.map_eq_cons_iff.1 hls
    exact reads_negative c (ih bs hbs rest)
  | operand _ ih => exact ih
  | brackets _ ih =>
    intro ls hls rest
    obtain ⟨⟨_, c⟩, tail, rfl, rfl, htail⟩ := List.map_eq_cons_iff.1 hls
    obtain ⟨as, d, bs, rfl, has, hbs⟩ := exists_lexemes_of_append htail
    obtain rfl := List.map_eq_nil_iff.1 hbs
    rw [List.cons_append, List.append_assoc]
    -- The closing bracket extends no phrase, so the expression inside is read whole.
    exact reads_brackets c (ih as has _ (stops_cons (by simp) d rest))
  | number n =>
    intro ls hls rest
    obtain ⟨⟨_, c⟩, bs, rfl, rfl, hbs⟩ := List.map_eq_cons_iff.1 hls
    obtain rfl := List.map_eq_nil_iff.1 hbs
    exact reads_number n c rest
  | name x =>
    intro ls hls rest
    obtain ⟨⟨_, c⟩, bs, rfl, rfl, hbs⟩ := List.map_eq_cons_iff.1 hls
    obtain rfl := List.map_eq_nil_iff.1 hbs
    exact reads_name x c rest

end Grammar

/-- No two numbers or names are neighbours in a phrase. -/
theorem Derives.separated {k : Phrase} {ts : List Token} {e : Expr} (h : Derives k ts e) :
    Separated ts := by
  have hsingle : ∀ t : Token, Separated [t] := fun t => List.isChain_singleton t
  induction h with
  | expression _ ih | single _ ih | factor _ ih | base _ ih | operand _ ih => exact ih
  | plus _ _ ih ihlast | minus _ _ ih ihlast | times _ _ ih ihlast | divided _ _ ih ihlast =>
    exact separated_append_symbol ih ihlast _
  | power _ _ ih => exact separated_append_symbol ih (hsingle _) _
  | negative _ ih => exact separated_append_symbol List.isChain_nil ih _
  | brackets _ ih =>
    have hopen := separated_append_symbol List.isChain_nil ih '('
    exact separated_append_symbol hopen List.isChain_nil ')'
  | number n => exact hsingle _
  | name x => exact hsingle _

/-- Nor do they meet in an equation. -/
theorem DerivesEquation.separated {ts : List Token} {e : Expr} (h : DerivesEquation ts e) :
    Separated ts := by
  cases h with
  | expression h => exact h.separated
  | sides hl hr => exact separated_append_symbol hl.separated hr.separated '='

theorem mem_occurrences_joined {x : String} {es : List Expr} :
    x ∈ (joined es).occurrences ↔ ∃ e ∈ es, x ∈ e.occurrences := by
  unfold joined
  split
  · simp
  · exact mem_occurrences_sum

@[simp]
theorem mem_occurrences_neg {x : String} {e : Expr} :
    x ∈ (neg e).occurrences ↔ x ∈ e.occurrences := by
  simp [neg]

@[simp]
theorem mem_occurrences_prod {x : String} {es : List Expr} :
    x ∈ (prod es).occurrences ↔ ∃ e ∈ es, x ∈ e.occurrences := by
  simp [prod]

/-- The variables of a tree are names of the phrase. -/
theorem Derives.name_mem {k : Phrase} {ts : List Token} {e : Expr} (h : Derives k ts e) {x : String}
    (hx : x ∈ e.occurrences) : .name x ∈ ts := by
  induction h with
  -- The tree is built from the phrase, and each rule brings in only the variables of its parts.
  | expression _ ih => exact ih (mem_occurrences_sum.2 (mem_occurrences_joined.1 hx))
  | single _ ih => exact ih (by simpa using hx)
  | factor _ ih | base _ ih | operand _ ih => exact ih hx
  | plus _ _ ih ihlast | minus _ _ ih ihlast =>
    simp only [mem_occurrences_sum, List.mem_append, List.mem_singleton, or_and_right, exists_or,
      exists_eq_left, mem_occurrences_neg] at hx ih
    rcases hx with hx | hx
    · exact List.mem_append_left _ (ih hx)
    · exact List.mem_append_right _ (List.mem_cons_of_mem _ (ihlast hx))
  | times _ _ ih ihlast =>
    simp only [mem_occurrences_prod, List.mem_cons, List.not_mem_nil, or_false, or_and_right,
      exists_or, exists_eq_left] at hx
    rcases hx with hx | hx
    · exact List.mem_append_left _ (ih hx)
    · exact List.mem_append_right _ (List.mem_cons_of_mem _ (ihlast hx))
  | divided _ _ ih ihlast =>
    rcases mem_occurrences_fraction.1 hx with hx | hx
    · exact List.mem_append_left _ (ih hx)
    · exact List.mem_append_right _ (List.mem_cons_of_mem _ (ihlast hx))
  | power _ _ ih =>
    obtain ⟨a, ha, hx⟩ := mem_occurrences_prod.1 hx
    rw [List.eq_of_mem_replicate ha] at hx
    exact List.mem_append_left _ (ih hx)
  | negative _ ih => exact List.mem_cons_of_mem _ (ih (mem_occurrences_neg.1 hx))
  | brackets _ ih => exact List.mem_append_left _ (List.mem_cons_of_mem _ (ih hx))
  | number n => simp [const] at hx
  | name y => simpa [var] using hx

/-- The symbols of a phrase are operators and brackets. -/
theorem Derives.symbol_mem {k : Phrase} {ts : List Token} {e : Expr} (h : Derives k ts e) {c : Char}
    (hc : .symbol c ∈ ts) : c ∈ ['+', '-', '*', '/', '^', '(', ')'] := by
  induction h with
  | expression _ ih | single _ ih | factor _ ih | base _ ih | operand _ ih => exact ih hc
  | plus _ _ ih ihlast | minus _ _ ih ihlast | times _ _ ih ihlast | divided _ _ ih ihlast =>
    simp only [List.mem_append, List.mem_cons, Token.symbol.injEq] at hc
    rcases hc with hc | rfl | hc
    · exact ih hc
    · simp
    · exact ihlast hc
  | power _ _ ih =>
    simp only [List.mem_append, List.mem_cons, Token.symbol.injEq, reduceCtorEq, List.not_mem_nil,
      or_false] at hc
    rcases hc with hc | rfl
    · exact ih hc
    · simp
  | negative _ ih =>
    simp only [List.mem_cons, Token.symbol.injEq] at hc
    rcases hc with rfl | hc
    · simp
    · exact ih hc
  | brackets _ ih =>
    simp only [List.cons_append, List.mem_append, List.mem_cons, Token.symbol.injEq,
      List.not_mem_nil, or_false] at hc
    rcases hc with rfl | hc | rfl
    · simp
    · exact ih hc
    · simp
  | number n => simp at hc
  | name y => simp at hc

/-- What is neither space nor part of a number or name in the text of a phrase is an operator or a
bracket. -/
theorem Denotes.symbol_mem {k : Phrase} {text : String} {e : Expr} (h : Denotes k text e) {c : Char}
    (hc : c ∈ text.toList) (hspace : Lexeme.isSpace c = false) (hword : c.isAlphanum = false) :
    c ∈ ['+', '-', '*', '/', '^', '(', ')'] := by
  obtain ⟨ts, hspells, hderives⟩ := h
  exact hderives.symbol_mem (hspells.symbol_mem hc hspace hword)

/-! ## Whole texts -/

namespace Expr

open Grammar

theorem map_eq_ok {α β ε : Type} {x : Except ε α} {f : α → β} {b : β} (h : x.map f = .ok b) :
    ∃ a, x = .ok a ∧ f a = b := by
  cases x with
  | error _ => cases h
  | ok a => exact ⟨a, rfl, Except.ok.inj h⟩

theorem mapError_eq_ok_iff {α ε δ : Type} {x : Except ε α} {f : ε → δ} {a : α} :
    x.mapError f = .ok a ↔ x = .ok a := by
  cases x <;> simp [Except.mapError]

/-- With its errors renamed, a computation fails exactly if it gives no answer. -/
theorem exists_mapError_eq_error_iff {α ε δ : Type} (x : Except ε α) (f : ε → δ) :
    (∃ error, x.mapError f = .error (f error)) ↔ ¬∃ a, x.mapError f = .ok a := by
  cases x <;> simp [Except.mapError]

/-- An answer is complete if nothing is left of the input. -/
theorem complete_eq_ok_iff {n : Nat} {p : Parsed Expr n} {e : Expr} :
    complete p = .ok e ↔ p.value = e ∧ p.rest = [] := by
  unfold complete
  split
  · rename_i hnil
    simp [hnil]
  · rename_i next after hcons
    simp [hcons]

/-- The lexemes of a text are an expression if all are read as one. -/
theorem ofLexemes_eq_ok_iff {input : List Lexeme} {e : Expr} :
    ofLexemes input = .ok e ↔ Reads (expression? input) e [] := by
  unfold ofLexemes
  split
  · rename_i hnone
    simp [Reads, hnone]
  · rename_i p hp
    simp [Reads, hp, complete_eq_ok_iff]

/-- The difference of two sides is read if the left one ends before an equals sign. -/
theorem equationOfLexemes_eq_ok_iff {input : List Lexeme} {e : Expr} :
    equationOfLexemes input = .ok e ↔
      Reads (expression? input) e [] ∨
        ∃ l c after r, Reads (expression? input) l (⟨.symbol '=', c⟩ :: after) ∧
          Reads (expression? after) r [] ∧ e = .sub l r := by
  constructor
  · -- The parser reads the left side first, and looks for an equals sign where that stops.
    intro h
    unfold equationOfLexemes at h
    split at h
    · cases h
    · rename_i left hleft
      split at h
      · rename_i c after hrest
        split at h
        · exact Or.inl ⟨left, hleft, complete_eq_ok_iff.1 h⟩
        · rename_i right hright
          obtain ⟨r, hr, rfl⟩ := map_eq_ok h
          exact Or.inr ⟨left.value, c, after, r, ⟨left, hleft, rfl, hrest⟩,
            ⟨right, hright, complete_eq_ok_iff.1 hr⟩, rfl⟩
      · exact Or.inl ⟨left, hleft, complete_eq_ok_iff.1 h⟩
  · rintro (⟨left, hleft, hvalue, hnil⟩ |
      ⟨_, c, after, r, ⟨left, hleft, rfl, hrest⟩, ⟨right, hright, hvalue, hnil⟩, rfl⟩)
    · rw [equationOfLexemes, hleft]
      simp only [hnil]
      exact complete_eq_ok_iff.2 ⟨hvalue, hnil⟩
    · rw [equationOfLexemes, hleft]
      simp only [hrest, hright]
      rw [complete_eq_ok_iff.2 ⟨hvalue, hnil⟩]
      rfl

/-- A list of lexemes is one expression exactly if it is derivable as that. -/
theorem reads_iff_derives {input : List Lexeme} {e : Expr} :
    Reads (expression? input) e [] ↔ Derives .expression (input.map Lexeme.token) e := by
  constructor
  · intro h
    obtain ⟨ls, rfl, hderives⟩ := begins_of_expression h
    rwa [List.append_nil]
  · intro h
    have hread := consumes_of_derives h input rfl [] (by simp [Stops])
    rwa [List.append_nil] at hread

/-- The lexemes of a text are an equation exactly if their tokens are one by the grammar. -/
theorem equationOfLexemes_eq_ok_iff_derives {input : List Lexeme} {e : Expr} :
    equationOfLexemes input = .ok e ↔ DerivesEquation (input.map Lexeme.token) e := by
  rw [equationOfLexemes_eq_ok_iff, reads_iff_derives]
  constructor
  · rintro (h | ⟨l, c, after, r, hl, hr, rfl⟩)
    · exact DerivesEquation.expression h
    · obtain ⟨ls, rfl, hleft⟩ := begins_of_expression hl
      rw [List.map_append]
      exact DerivesEquation.sides hleft (reads_iff_derives.1 hr)
  · intro h
    generalize hts : input.map Lexeme.token = ts at h
    cases h with
    | expression h => exact Or.inl h
    | sides hl hr =>
      -- An equals sign extends no expression, so the left side is read whole.
      obtain ⟨as, c, bs, rfl, rfl, rfl⟩ := exists_lexemes_of_append hts
      exact Or.inr ⟨_, c, bs, _, consumes_of_derives hl as rfl _ (stops_cons (by simp) c bs),
        reads_iff_derives.2 hr, rfl⟩

/-- A text parses as an expression exactly if it denotes it. -/
theorem parse_eq_ok_iff {text : String} {e : Expr} :
    parse text = .ok e ↔ Denotes .expression text e := by
  rw [parse, mapError_eq_ok_iff, ofLexemes_eq_ok_iff, reads_iff_derives]
  constructor
  · intro h
    exact ⟨_, Lexeme.spells_scan _, h⟩
  · rintro ⟨ts, hspells, h⟩
    rwa [hspells.tokens_scan h.separated]

/-- A text parses as an equation exactly if it denotes it. -/
theorem parseEquation_eq_ok_iff {text : String} {e : Expr} :
    parseEquation text = .ok e ↔ DenotesEquation text e := by
  rw [parseEquation, mapError_eq_ok_iff, equationOfLexemes_eq_ok_iff_derives]
  constructor
  · intro h
    exact ⟨_, Lexeme.spells_scan _, h⟩
  · rintro ⟨ts, hspells, h⟩
    rwa [hspells.tokens_scan h.separated]

/-- The variables of a parsed equation are spelled as names are. -/
theorem isName_of_parseEquation {text : String} {e : Expr} (h : parseEquation text = .ok e) :
    ∀ x ∈ e.occurrences, isName x = true := by
  intro x hx
  obtain ⟨ts, hspells, hderives⟩ := parseEquation_eq_ok_iff.1 h
  cases hderives with
  | expression h => exact hspells.isName_of_mem (h.name_mem hx)
  | sides hl hr =>
    simp only [sub, mem_occurrences_sum, List.mem_cons, List.not_mem_nil, or_false, or_and_right,
      exists_or, exists_eq_left, mem_occurrences_neg] at hx
    apply hspells.isName_of_mem
    rcases hx with hx | hx
    · exact List.mem_append_left _ (hl.name_mem hx)
    · exact List.mem_append_right _ (List.mem_cons_of_mem _ (hr.name_mem hx))

/-- The reader accepts exactly the texts of the grammar and gives their trees, of which there is one
for each text. Any other text is malformed. -/
theorem parse_accepts_exactly (text : String) :
    ((∀ e, parse text = .ok e ↔ Denotes .expression text e) ∧
        {e | Denotes .expression text e}.Subsingleton ∧
        ((∃ error, parse text = .error (.malformed error)) ↔ ¬∃ e, Denotes .expression text e)) ∧
      (∀ e, parseEquation text = .ok e ↔ DenotesEquation text e) ∧
        {e | DenotesEquation text e}.Subsingleton ∧
        ((∃ error, parseEquation text = .error (.malformed error)) ↔
          ¬∃ e, DenotesEquation text e) := by
  -- The parser is a function, so a text denotes one tree at most; where it denotes none, the parser
  -- fails.
  refine ⟨⟨fun _ => parse_eq_ok_iff, ?_, ?_⟩, fun _ => parseEquation_eq_ok_iff, ?_, ?_⟩
  · intro e he e' he'
    exact Except.ok.inj ((parse_eq_ok_iff.2 he).symm.trans (parse_eq_ok_iff.2 he'))
  · simp only [← parse_eq_ok_iff, parse]
    exact exists_mapError_eq_error_iff _ _
  · intro e he e' he'
    exact Except.ok.inj ((parseEquation_eq_ok_iff.2 he).symm.trans (parseEquation_eq_ok_iff.2 he'))
  · simp only [← parseEquation_eq_ok_iff, parseEquation]
    exact exists_mapError_eq_error_iff _ _

end Expr

end RationalAlgebra
