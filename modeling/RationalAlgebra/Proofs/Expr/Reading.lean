import Mathlib
import RationalAlgebra.Proofs.Expr.Grammar
import RationalAlgebra.Proofs.Expr.Value
import RationalAlgebra.Proofs.Normal.Shape

/-!
# Reading what was printed

The text of an expression is that of a phrase, with a tree that is in general another one: products
are read from the left as products of two factors, a rational as the quotient of two integers, a
minus sign as a negation, and a sum without brackets becomes part of the sum around it. This file
says which tree is read, and that it has the same value wherever there is one.

Main statements: `parse_text_eq_reading`, `eval_reading` and `parse_text_eval`.
-/

namespace RationalAlgebra

open RationalAlgebra.Expr

namespace Expr

/-! ## The tree that is read -/

/-- An integer as it is read from its text. -/
def integerReading : Int → Expr
  | .ofNat n => .const n
  | .negSucc n => .neg (.const (n + 1 : Nat))

/-- A rational as it is read from its text. -/
def numberReading (q : Rat) : Expr :=
  if Number.isInteger q then integerReading q.num
  else .fraction (integerReading q.num) (.const q.den)

/-- The product of two expressions. -/
def times (a b : Expr) : Expr :=
  .prod [a, b]

/-- The first part of a product behind its constant, as they are read from the text. -/
def withConstant (c : Rat) (first : Expr) : Expr :=
  if c = 1 then first
  else if c = -1 then .neg first
  else times (numberReading c) first

/-- A product as it is read from its text. The parts are the readings of its variables and
factors. -/
def productReading (c : Rat) : List Expr → Expr
  | [] => numberReading c
  | first :: rest => rest.foldl times (withConstant c first)

mutual

/-- The terms that are read from the text of an expression, at the front of a sum or behind its
first addend, where a minus sign belongs to the whole term. -/
def signedTerms (isFirst : Bool) : Expr → List Expr
  | sum addends => addendTerms true addends
  | product c vs fs =>
    if isFirst = false ∧ c < 0 then [.neg (productReading (-c) (vs.map var ++ readings fs))]
    else [productReading c (vs.map var ++ readings fs)]
  | fraction n d => [.fraction (joined (signedTerms true n)) (joined (signedTerms true d))]

/-- The terms that are read from the text of some addends. -/
def addendTerms (isFirst : Bool) : List Expr → List Expr
  | [] => []
  | e :: es => signedTerms isFirst e ++ addendTerms false es

/-- The trees that are read from the texts of some operands. -/
def readings : List Expr → List Expr
  | [] => []
  | e :: es => joined (signedTerms true e) :: readings es

end

/-- The tree that is read from the text of an expression. -/
def reading (e : Expr) : Expr :=
  joined (signedTerms true e)

theorem readings_eq (es : List Expr) : readings es = es.map reading := by
  induction es with
  | nil => rfl
  | cons e es ih => rw [readings, ih, List.map_cons, reading]

/-- The reading of a sum joins those of its addends. -/
@[simp]
theorem reading_sum (es : List Expr) : (sum es).reading = joined (addendTerms true es) := by
  rw [reading, signedTerms]

/-- The reading of a product: its constant, its variables and the readings of its factors. -/
@[simp]
theorem reading_product (c : Rat) (vs : List String) (fs : List Expr) :
    (product c vs fs).reading = productReading c (vs.map var ++ fs.map reading) := by
  rw [reading, signedTerms, if_neg (by simp), readings_eq]
  rfl

@[simp]
theorem reading_fraction (n d : Expr) :
    (fraction n d).reading = .fraction n.reading d.reading := by
  rw [reading, signedTerms]
  rfl

end Expr

/-! ## Phrases in texts -/

/-- A symbol with a space on either side, as sums and quotients are written. -/
theorem spells_spaced {c : Char} (hspace : Lexeme.isSpace c = false)
    (hword : c.isAlphanum = false) : Spells [.symbol c] [' ', c, ' '] := by
  have hgap : ∀ d ∈ [' '], Lexeme.isSpace d = true := by simp [Lexeme.isSpace]
  exact Spells.cons hgap (Token.Spelling.symbol hspace hword) (Spells.nil hgap)

/-- Two texts with a symbol between them spell the tokens of both, with the symbol between. -/
theorem spells_between {s sign t : String} {ts us : List Token} {c : Char}
    (hsign : Spells [.symbol c] sign.toList) (hs : Spells ts s.toList) (ht : Spells us t.toList) :
    Spells (ts ++ .symbol c :: us) (s ++ sign ++ t).toList := by
  rw [String.toList_append, String.toList_append, List.append_assoc]
  exact hs.append (hsign.append ht)

variable {j k l : Phrase} {s t : String} {a b e : Expr}

/-- A rule by which a phrase is one of another kind. -/
theorem Denotes.imp (hrule : ∀ {ts : List Token}, Derives k ts a → Derives l ts e)
    (h : Denotes k s a) : Denotes l s e := by
  obtain ⟨ts, hs, hderives⟩ := h
  exact ⟨ts, hs, hrule hderives⟩

/-- A rule by which two phrases with a symbol between them are one. -/
theorem Denotes.between {c : Char} {sign : String} (hsign : Spells [.symbol c] sign.toList)
    (hrule : ∀ {ts us : List Token}, Derives j ts a → Derives k us b →
      Derives l (ts ++ .symbol c :: us) e)
    (ha : Denotes j s a) (hb : Denotes k t b) : Denotes l (s ++ sign ++ t) e := by
  obtain ⟨ts, hs, hleft⟩ := ha
  obtain ⟨us, ht, hright⟩ := hb
  exact ⟨_, spells_between hsign hs ht, hrule hleft hright⟩

/-- Terms behind other terms. -/
theorem Derives.terms_append {ts us : List Token} {as bs : List Expr}
    (has : Derives .terms ts (.sum as)) (hbs : Derives .terms us (.sum bs)) :
    Derives .terms (ts ++ .symbol '+' :: us) (.sum (as ++ bs)) := by
  -- The induction is on the second sequence: its terms join the first one from the left.
  generalize hk : Phrase.terms = k at hbs
  generalize he : Expr.sum bs = e at hbs
  induction hbs generalizing bs with
  | single h =>
    obtain rfl := Expr.sum.inj he
    exact Derives.plus has h
  | plus _ hlast ih _ =>
    obtain rfl := Expr.sum.inj he
    have hsum := Derives.plus (ih rfl rfl) hlast
    rwa [List.append_assoc, List.append_assoc, List.cons_append] at hsum
  | minus _ hlast ih _ =>
    obtain rfl := Expr.sum.inj he
    have hsum := Derives.minus (ih rfl rfl) hlast
    rwa [List.append_assoc, List.append_assoc, List.cons_append] at hsum
  | _ => cases hk

/-- Terms written behind other terms. -/
theorem Denotes.terms_append {as bs : List Expr} (has : Denotes .terms s (.sum as))
    (hbs : Denotes .terms t (.sum bs)) : Denotes .terms (s ++ " + " ++ t) (.sum (as ++ bs)) :=
  Denotes.between (spells_spaced rfl rfl) Derives.terms_append has hbs

/-- One more term. -/
theorem Denotes.plus {es : List Expr} (h : Denotes .terms s (.sum es)) (hlast : Denotes .term t e) :
    Denotes .terms (s ++ " + " ++ t) (.sum (es ++ [e])) :=
  Denotes.between (spells_spaced rfl rfl) Derives.plus h hlast

/-- One more term, which is taken away. -/
theorem Denotes.minus {es : List Expr} (h : Denotes .terms s (.sum es))
    (hlast : Denotes .term t e) : Denotes .terms (s ++ " - " ++ t) (.sum (es ++ [.neg e])) :=
  Denotes.between (spells_spaced rfl rfl) Derives.minus h hlast

/-- One more factor. Products are written without spaces. -/
theorem Denotes.times (ha : Denotes .term s a) (hb : Denotes .power t b) :
    Denotes .term (s ++ "*" ++ t) (times a b) :=
  Denotes.between (Token.Spelling.symbol rfl rfl).spells Derives.times ha hb

/-- A divisor. The sign has spaces between expressions and none inside a number. -/
theorem Denotes.over {sign : String} (hsign : Spells [.symbol '/'] sign.toList)
    (ha : Denotes .term s a) (hb : Denotes .power t b) :
    Denotes .term (s ++ sign ++ t) (.fraction a b) :=
  Denotes.between hsign Derives.divided ha hb

/-- A minus in front. -/
theorem Denotes.negative (h : Denotes .signed s e) : Denotes .signed ("-" ++ s) (.neg e) := by
  obtain ⟨ts, hs, hsigned⟩ := h
  refine ⟨_, ?_, Derives.negative hsigned⟩
  rw [String.toList_append]
  exact (Token.Spelling.symbol rfl rfl).spells.append hs

/-- Any expression may stand in brackets. -/
theorem Denotes.brackets (h : Denotes .expression s e) : Denotes .operand ("(" ++ s ++ ")") e := by
  obtain ⟨ts, hs, hexpression⟩ := h
  refine ⟨_, ?_, Derives.brackets hexpression⟩
  rw [String.toList_append, String.toList_append]
  exact ((Token.Spelling.symbol rfl rfl).spells.append hs).append
    (Token.Spelling.symbol rfl rfl).spells

theorem Denotes.signed (h : Denotes .operand s e) : Denotes .signed s e :=
  h.imp Derives.operand

theorem Denotes.power (h : Denotes .signed s e) : Denotes .power s e :=
  h.imp Derives.base

theorem Denotes.term (h : Denotes .power s e) : Denotes .term s e :=
  h.imp Derives.factor

theorem Denotes.single (h : Denotes .term s e) : Denotes .terms s (.sum [e]) :=
  h.imp Derives.single

/-- A sequence of terms is an expression, in which a single term stands for itself. -/
theorem Denotes.expression {es : List Expr} (h : Denotes .terms s (.sum es)) :
    Denotes .expression s (joined es) :=
  h.imp Derives.expression

/-- The digits of a number read as the number. -/
theorem denotes_number (n : Nat) : Denotes .operand (toString n) (.const n) := by
  refine ⟨_, ?_, Derives.number n⟩
  have hall : ∀ c ∈ Nat.toDigits 10 n, c.isDigit = true :=
    fun c hc => Nat.isDigit_of_mem_toDigits (by decide) (by decide) hc
  have hdigits := Token.Spelling.number Nat.toDigits_ne_nil hall
  rw [Nat.ofDigitChars_ten_toDigits] at hdigits
  rw [Nat.toString_eq_ofList_toDigits, String.toList_ofList]
  exact hdigits.spells

theorem denotes_name {x : String} (hx : isName x = true) : Denotes .operand x (.var x) :=
  ⟨_, (Token.Spelling.name hx).spells, Derives.name x⟩

/-! ## Texts of numbers and products -/

namespace Expr

/-- An integer reads as a number behind its sign. -/
theorem denotes_integer (n : Int) : Denotes .signed (toString n) (integerReading n) := by
  cases n with
  | ofNat n => exact (denotes_number n).signed
  | negSucc n => exact (denotes_number (n + 1)).signed.negative

/-- A rational reads as an integer, or as a quotient of an integer by a number. -/
theorem denotes_numberReading (q : Rat) : Denotes .term (Number.text q) (numberReading q) := by
  unfold Number.text numberReading
  split
  · exact (denotes_integer q.num).power.term
  · exact Denotes.over (Token.Spelling.symbol rfl rfl).spells (denotes_integer q.num).power.term
      (denotes_number q.den).signed.power

/-- Factors that are joined by stars read as products from the left. -/
theorem denotes_foldl_times {texts : List String} {trees : List Expr}
    (h : List.Forall₂ (Denotes .operand) texts trees) {s : String} {e : Expr}
    (hs : Denotes .term s e) :
    Denotes .term ("*".intercalate (s :: texts)) (trees.foldl times e) := by
  induction h generalizing s e with
  | nil => simpa using hs
  | @cons t f texts trees hf _ ih =>
    have hmore := ih (hs.times hf.signed.power)
    -- The text that is built from the left is the one that is joined from the right.
    cases texts with
    | nil => simpa [String.intercalate_cons_cons] using hmore
    | cons u texts => simpa [String.intercalate_cons_cons, String.append_assoc] using hmore

/-- The text of a product is that of one term. -/
theorem denotes_productReading (c : Rat) {texts : List String} {trees : List Expr}
    (h : List.Forall₂ (Denotes .operand) texts trees) :
    Denotes .term (productText c texts) (productReading c trees) := by
  cases h with
  | nil => exact denotes_numberReading c
  | @cons t e texts trees he h =>
    rw [productText, productReading, withConstant, if_neg (by simp)]
    -- A constant one is left out, minus one is a sign before the first factor, and any other
    -- constant is a factor in front.
    split
    · exact denotes_foldl_times h he.signed.power.term
    · split
      · have hterm := denotes_foldl_times h he.signed.negative.power.term
        rwa [String.intercalate_cons_append] at hterm
      · have hterm := denotes_foldl_times h ((denotes_numberReading c).times he.signed.power)
        rwa [String.intercalate_cons_append] at hterm

/-! ## Texts of expressions -/

/-- An expression whose text can be read: its variables are named as in a text, and no sum in it is
empty. -/
def Printable (e : Expr) : Prop :=
  (∀ x ∈ e.occurrences, isName x = true) ∧ ∀ p, Within p e → p ≠ sum []

/-- A sum can be printed if it has addends and each can. -/
theorem printable_sum {es : List Expr} :
    (sum es).Printable ↔ es ≠ [] ∧ ∀ e ∈ es, e.Printable := by
  constructor
  · intro h
    refine ⟨?_, fun e he => ⟨fun x hx => ?_, fun p hp => h.2 p (Within.addend he hp)⟩⟩
    · -- A sum without addends is the one thing that has no text.
      rintro rfl
      exact h.2 _ (Within.refl _) rfl
    · exact h.1 x (mem_occurrences_sum.2 ⟨e, he, hx⟩)
  · rintro ⟨hne, hes⟩
    refine ⟨fun x hx => ?_, fun p hp => ?_⟩
    · obtain ⟨e, he, hmem⟩ := mem_occurrences_sum.1 hx
      exact (hes e he).1 x hmem
    · cases hp with
      | refl => simpa using hne
      | addend he hp => exact (hes _ he).2 p hp

/-- A product can be printed if its variables are names and each factor can. -/
theorem printable_product {c : Rat} {vs : List String} {fs : List Expr} :
    (product c vs fs).Printable ↔ (∀ x ∈ vs, isName x = true) ∧ ∀ f ∈ fs, f.Printable := by
  constructor
  · intro h
    refine ⟨fun x hx => h.1 x (mem_occurrences_product.2 (Or.inl hx)),
      fun f hf => ⟨fun x hx => ?_, fun p hp => h.2 p (Within.factor hf hp)⟩⟩
    exact h.1 x (mem_occurrences_product.2 (Or.inr ⟨f, hf, hx⟩))
  · rintro ⟨hvs, hfs⟩
    refine ⟨fun x hx => ?_, fun p hp => ?_⟩
    · rcases mem_occurrences_product.1 hx with hmem | ⟨f, hf, hmem⟩
      · exact hvs x hmem
      · exact (hfs f hf).1 x hmem
    · cases hp with
      | refl => simp
      | factor hf hp => exact (hfs _ hf).2 p hp

/-- A quotient can be printed if both parts can. -/
theorem printable_fraction {n d : Expr} :
    (fraction n d).Printable ↔ n.Printable ∧ d.Printable := by
  constructor
  · intro h
    exact ⟨⟨fun x hx => h.1 x (mem_occurrences_fraction.2 (Or.inl hx)),
        fun p hp => h.2 p (Within.numerator hp)⟩,
      fun x hx => h.1 x (mem_occurrences_fraction.2 (Or.inr hx)),
      fun p hp => h.2 p (Within.denominator hp)⟩
  · rintro ⟨hn, hd⟩
    refine ⟨fun x hx => ?_, fun p hp => ?_⟩
    · rcases mem_occurrences_fraction.1 hx with hmem | hmem
      · exact hn.1 x hmem
      · exact hd.1 x hmem
    · cases hp with
      | refl => simp
      | numerator hp => exact hn.2 p hp
      | denominator hp => exact hd.2 p hp

/-- An integer that is not negative is written in digits alone, and reads as a number. -/
theorem text_of_nonneg {c : Rat} (hinteger : Number.isInteger c = true) (hc : 0 ≤ c) :
    ∃ n : Nat, Number.text c = toString n ∧ numberReading c = const n := by
  obtain ⟨n, hn⟩ := Int.eq_ofNat_of_zero_le (Rat.num_nonneg.2 hc)
  refine ⟨n, ?_, ?_⟩
  · rw [Number.text, if_pos hinteger, hn]
    rfl
  · rw [numberReading, if_pos hinteger, hn]
    rfl

/-- A natural number and a single variable are operands as they are. -/
theorem denotes_of_isAtomic {e : Expr} (he : e.Printable) (h : e.isAtomic = true) :
    Denotes .operand e.text e.reading := by
  unfold isAtomic at h
  -- What needs no brackets is a natural number or a single variable.
  split at h
  · rename_i c
    rw [Bool.and_eq_true, decide_eq_true_eq] at h
    obtain ⟨n, htext, hreading⟩ := text_of_nonneg h.1 h.2
    simp only [text, operandTexts, productText, reading_product, productReading, List.map_nil,
      List.append_nil, List.isEmpty_nil, if_true, htext, hreading]
    exact denotes_number n
  · rename_i c x
    obtain rfl := of_decide_eq_true h
    have hx : isName x = true := he.1 x (by simp)
    simpa [text, operandTexts, productText, productReading, withConstant] using denotes_name hx
  · cases h

/-- A part in its place, with brackets where it needs them, reads as an operand. -/
theorem denotes_bracketed {e : Expr} (he : e.Printable)
    (h : Denotes .terms e.text (.sum (signedTerms true e))) :
    Denotes .operand (bracketed e e.text) e.reading := by
  unfold bracketed
  split
  · rename_i hatomic
    exact denotes_of_isAtomic he hatomic
  · exact h.expression.brackets

/-- A negative number is written as its absolute value behind a minus. -/
theorem text_neg {c : Rat} (hc : c < 0) : "-" ++ Number.text (-c) = Number.text c := by
  -- A positive numerator is not zero, so negating it gives an integer that prints its sign.
  obtain ⟨n, hn⟩ := Int.eq_negSucc_of_lt_zero (Rat.num_neg.2 hc)
  have hneg : (-c).num = Int.ofNat (n + 1) := by rw [Rat.num_neg_eq_neg_num, hn]; rfl
  have hinteger : Number.isInteger (-c) = Number.isInteger c := by
    rw [Number.isInteger, Number.isInteger, Rat.den_neg_eq_den]
  rw [Number.text, Number.text, hinteger, hneg, hn, Rat.den_neg_eq_den]
  split
  · rfl
  · rw [← String.append_assoc, ← String.append_assoc]
    rfl

/-- A sign before a product is the sign of its constant. -/
theorem productText_neg {c : Rat} (hc : c < 0) (parts : List String) :
    "-" ++ productText (-c) parts = productText c parts := by
  have hone : c ≠ 1 := by linarith
  unfold productText
  split
  · exact text_neg hc
  · simp only
    by_cases hminus : c = -1
    · simp [hminus]
    · have h1 : -c ≠ 1 := fun h => hminus (by linarith)
      have h2 : -c ≠ -1 := fun h => hone (by linarith)
      rw [if_neg h1, if_neg h2, if_neg hminus, ← text_neg hc, String.append_assoc,
        String.append_assoc, String.append_assoc]

/-- The text of a sum is that of its first addend and then that of the rest, whose signs are
between. -/
theorem sumText_cons (isFirst : Bool) (e : Expr) (es : List Expr) :
    sumText isFirst (e :: es) = sumText isFirst [e] ++ sumText false es := by
  cases e <;> simp [sumText]

/-- An addend in the first place is written as if alone. -/
theorem sumText_true_singleton (e : Expr) : sumText true [e] = e.text := by
  cases e with
  | sum es => simp [sumText, signText, text]
  | fraction n d => simp [sumText, signText, text]
  | product c vs fs =>
    by_cases hc : c < 0
    · simp [sumText, signText, text, hc, productText_neg hc]
    · simp [sumText, signText, text, hc]

/-- The text of an expression is that of its terms, by itself and behind other terms. -/
structure ReadsBack (e : Expr) : Prop where
  alone : Denotes .terms e.text (.sum (signedTerms true e))
  behind : ∀ s as, Denotes .terms s (.sum as) →
    Denotes .terms (s ++ sumText false [e]) (.sum (as ++ signedTerms false e))

/-- Addends that can be read one by one can be read together. -/
theorem denotes_addends {es : List Expr} (hes : ∀ e ∈ es, e.ReadsBack) {s : String}
    {as : List Expr} (hs : Denotes .terms s (.sum as)) :
    Denotes .terms (s ++ sumText false es) (.sum (as ++ addendTerms false es)) := by
  induction es generalizing s as with
  | nil => simpa [sumText, addendTerms] using hs
  | cons e es ih =>
    obtain ⟨he, hrest⟩ := List.forall_mem_cons.1 hes
    have hall := ih hrest (he.behind s as hs)
    rwa [String.append_assoc, ← sumText_cons, List.append_assoc, ← addendTerms] at hall

/-- A sum reads back if its addends do. -/
theorem readsBack_sum {es : List Expr} (hne : es ≠ []) (hes : ∀ e ∈ es, e.ReadsBack) :
    (sum es).ReadsBack := by
  have halone : Denotes .terms (sum es).text (.sum (signedTerms true (sum es))) := by
    -- The first addend carries its own sign; the others follow their signs.
    obtain ⟨e, rest, rfl⟩ := List.exists_cons_of_ne_nil hne
    obtain ⟨he, hrest⟩ := List.forall_mem_cons.1 hes
    rw [text, sumText_cons, sumText_true_singleton, signedTerms, addendTerms]
    exact denotes_addends hrest he.alone
  refine ⟨halone, fun s as hs => ?_⟩
  have happend := hs.terms_append halone
  rw [signedTerms] at happend ⊢
  simpa [sumText, signText, String.append_assoc] using happend

/-- The factors of a product are written one by one, each with brackets where it needs them. -/
theorem operandTexts_eq (fs : List Expr) :
    operandTexts fs = fs.map fun f => bracketed f f.text := by
  induction fs with
  | nil => rfl
  | cons f fs ih => rw [operandTexts, ih, List.map_cons]

/-- A product reads back if its factors do. -/
theorem readsBack_product {c : Rat} {vs : List String} {fs : List Expr}
    (h : (product c vs fs).Printable) (hfs : ∀ f ∈ fs, f.ReadsBack) :
    (product c vs fs).ReadsBack := by
  obtain ⟨hvs, hprintable⟩ := printable_product.1 h
  have hnames : List.Forall₂ (Denotes .operand) vs (vs.map var) := by
    rw [List.forall₂_map_right_iff, List.forall₂_same]
    exact fun x hx => denotes_name (hvs x hx)
  have hfactors : List.Forall₂ (Denotes .operand) (operandTexts fs) (readings fs) := by
    rw [operandTexts_eq, readings_eq, List.forall₂_map_left_iff, List.forall₂_map_right_iff,
      List.forall₂_same]
    exact fun f hf => denotes_bracketed (hprintable f hf) (hfs f hf).alone
  have hparts := List.rel_append hnames hfactors
  constructor
  · rw [text, signedTerms, if_neg (by simp)]
    exact (denotes_productReading c hparts).single
  · intro s as hs
    -- Behind other terms the sign of the constant is written as the sign of the term.
    by_cases hc : c < 0
    · have hterm := hs.minus (denotes_productReading (-c) hparts)
      simpa [sumText, signedTerms, signText, hc, String.append_assoc] using hterm
    · have hterm := hs.plus (denotes_productReading c hparts)
      simpa [sumText, signedTerms, signText, hc, String.append_assoc] using hterm

/-- A quotient reads back if its parts do. -/
theorem readsBack_fraction {n d : Expr} (h : (fraction n d).Printable) (hn : n.ReadsBack)
    (hd : d.ReadsBack) : (fraction n d).ReadsBack := by
  obtain ⟨hpn, hpd⟩ := printable_fraction.1 h
  -- A quotient is one term, alone as well as behind other terms.
  have hterm : Denotes .term (fraction n d).text (.fraction n.reading d.reading) := by
    have hnum := denotes_bracketed hpn hn.alone
    have hden := denotes_bracketed hpd hd.alone
    rw [text]
    exact Denotes.over (spells_spaced rfl rfl) hnum.signed.power.term hden.signed.power
  constructor
  · rw [signedTerms]
    exact hterm.single
  · intro s as hs
    have hsum := hs.plus hterm
    rw [signedTerms]
    simpa [sumText, signText, String.append_assoc, reading] using hsum

/-- Everything that can be printed reads back. The induction is over the tree, one rule of the text
for each constructor. -/
theorem readsBack_of_printable {e : Expr} (h : e.Printable) : e.ReadsBack := by
  induction e using tree_induction with
  | sum es ih =>
    obtain ⟨hne, hes⟩ := printable_sum.1 h
    exact readsBack_sum hne fun e he => ih e he (hes e he)
  | product c vs fs ih =>
    exact readsBack_product h fun f hf => ih f hf ((printable_product.1 h).2 f hf)
  | fraction n d ihn ihd =>
    obtain ⟨hn, hd⟩ := printable_fraction.1 h
    exact readsBack_fraction h (ihn hn) (ihd hd)

/-- The text of a printable expression is that of its reading. -/
theorem denotes_reading {e : Expr} (h : e.Printable) : Denotes .expression e.text e.reading :=
  (readsBack_of_printable h).alone.expression

/-- The parser finds the reading of a text. -/
theorem parse_text_eq_reading {e : Expr} (h : e.Printable) : parse e.text = .ok e.reading :=
  parse_eq_ok_iff.2 (denotes_reading h)

/-! ## Values of readings -/

variable {v : Valuation}

theorem value_neg (v : Valuation) (e : Expr) : (neg e).value v = -e.value v := by
  simp [neg]

theorem defined_neg {e : Expr} : (neg e).Defined v ↔ e.Defined v := by
  simp [neg]

/-- Joined terms have the value of their sum, also where there is only one. -/
theorem value_joined (v : Valuation) (es : List Expr) :
    (joined es).value v = (es.map (value v)).sum := by
  unfold joined
  split
  · simp
  · rw [value_sum]

theorem defined_joined {es : List Expr} : (joined es).Defined v ↔ ∀ e ∈ es, e.Defined v := by
  unfold joined
  split
  · simp
  · rw [defined_sum]

theorem value_integerReading (v : Valuation) (n : Int) : (integerReading n).value v = n := by
  cases n with
  | ofNat n => simp [integerReading]
  | negSucc n =>
    rw [integerReading, value_neg, value_const, Int.cast_negSucc]

theorem defined_integerReading (n : Int) : (integerReading n).Defined v := by
  cases n with
  | ofNat n => exact defined_const _
  | negSucc n => exact defined_neg.2 (defined_const _)

/-- The reading of a rational has the rational as value: its numerator over its denominator. -/
theorem value_numberReading (v : Valuation) (q : Rat) : (numberReading q).value v = q := by
  unfold numberReading
  split
  · rename_i hinteger
    rw [value_integerReading]
    exact Rat.coe_int_num_of_den_eq_one (beq_iff_eq.1 hinteger)
  · rw [value_fraction, value_integerReading, value_const]
    exact Rat.num_div_den q

/-- The reading of a rational has a value everywhere, since its denominator is not zero. -/
theorem defined_numberReading (q : Rat) : (numberReading q).Defined v := by
  unfold numberReading
  split
  · exact defined_integerReading _
  · rw [defined_fraction, value_const]
    exact ⟨defined_integerReading _, defined_const _, by simp⟩

/-- A product from the left has the product of the values. -/
theorem value_foldl_times (v : Valuation) (es : List Expr) (e : Expr) :
    (es.foldl times e).value v = e.value v * (es.map (value v)).prod := by
  induction es generalizing e with
  | nil => simp
  | cons f es ih =>
    rw [List.foldl_cons, ih, List.map_cons, List.prod_cons, ← mul_assoc]
    simp [times, prod]

/-- A product from the left has a value where all its factors have. -/
theorem defined_foldl_times {es : List Expr} {e : Expr} :
    (es.foldl times e).Defined v ↔ e.Defined v ∧ ∀ f ∈ es, f.Defined v := by
  induction es generalizing e with
  | nil => simp
  | cons f es ih =>
    rw [List.foldl_cons, ih, List.forall_mem_cons, ← and_assoc]
    simp [times, prod]

/-- The value with a constant in front, however the constant is written. -/
theorem value_withConstant (v : Valuation) (c : Rat) (e : Expr) :
    (withConstant c e).value v = c * e.value v := by
  unfold withConstant
  split
  · rename_i hc
    rw [hc, one_mul]
  · split
    · rename_i hc
      rw [hc, value_neg, neg_one_mul]
    · simp [times, prod, value_numberReading]

/-- A constant in front takes no value away. -/
theorem defined_withConstant {c : Rat} {e : Expr} :
    (withConstant c e).Defined v ↔ e.Defined v := by
  unfold withConstant
  split
  · exact Iff.rfl
  · split
    · exact defined_neg
    · simp [times, prod, defined_numberReading]

theorem value_productReading (v : Valuation) (c : Rat) (es : List Expr) :
    (productReading c es).value v = c * (es.map (value v)).prod := by
  cases es with
  | nil => simp [productReading, value_numberReading]
  | cons e es =>
    rw [productReading, value_foldl_times, value_withConstant, List.map_cons, List.prod_cons,
      mul_assoc]

/-- The reading of a product has a value where the readings of its parts have. -/
theorem defined_productReading {c : Rat} {es : List Expr} :
    (productReading c es).Defined v ↔ ∀ e ∈ es, e.Defined v := by
  cases es with
  | nil => simp [productReading, defined_numberReading]
  | cons e es =>
    rw [productReading, defined_foldl_times, defined_withConstant, List.forall_mem_cons]

/-- The terms of several addends have the sum of their values, if those of each addend have its
value. -/
theorem sum_addendTerms {es : List Expr}
    (h : ∀ e ∈ es, ∀ isFirst, ((signedTerms isFirst e).map (value v)).sum = e.value v)
    (isFirst : Bool) :
    ((addendTerms isFirst es).map (value v)).sum = (es.map (value v)).sum := by
  induction es generalizing isFirst with
  | nil => rfl
  | cons e es ih =>
    obtain ⟨he, hrest⟩ := List.forall_mem_cons.1 h
    rw [addendTerms, List.map_append, List.sum_append, he, ih hrest, List.map_cons, List.sum_cons]

/-- The terms that are read from an expression add up to it. -/
theorem sum_signedTerms (v : Valuation) (e : Expr) (isFirst : Bool) :
    ((signedTerms isFirst e).map (value v)).sum = e.value v := by
  induction e using tree_induction generalizing isFirst with
  | sum es ih =>
    rw [signedTerms, sum_addendTerms ih, value_sum]
  | product c vs fs ih =>
    -- The variables and the factors are read part by part.
    have hparts : ((vs.map var ++ readings fs).map (value v)).prod =
        (vs.map v.read).prod * (fs.map (value v)).prod := by
      have hvs : vs.map (value v ∘ var) = vs.map v.read :=
        List.map_congr_left fun x _ => by simp [var]
      have hfs : fs.map (value v ∘ reading) = fs.map (value v) :=
        List.map_congr_left fun f hf => (value_joined v _).trans (ih f hf true)
      rw [readings_eq, List.map_append, List.map_map, List.map_map, hvs, hfs, List.prod_append]
    rw [signedTerms, value_product, mul_assoc, ← hparts]
    -- Behind other terms a negative product is read as a product that is taken away.
    split
    · simp [value_neg, value_productReading]
    · simp [value_productReading]
  | fraction n d ihn ihd =>
    simp [signedTerms, value_joined, ihn, ihd]

/-- The terms of several addends have values where the addends have. -/
theorem forall_defined_addendTerms {es : List Expr}
    (h : ∀ e ∈ es, ∀ isFirst, (∀ t ∈ signedTerms isFirst e, t.Defined v) ↔ e.Defined v)
    (isFirst : Bool) :
    (∀ t ∈ addendTerms isFirst es, t.Defined v) ↔ ∀ e ∈ es, e.Defined v := by
  induction es generalizing isFirst with
  | nil => simp [addendTerms]
  | cons e es ih =>
    obtain ⟨he, hrest⟩ := List.forall_mem_cons.1 h
    rw [addendTerms, List.forall_mem_append, he, ih hrest, List.forall_mem_cons]

/-- The terms that are read from an expression have values where it has one. -/
theorem forall_defined_signedTerms {e : Expr} (isFirst : Bool) :
    (∀ t ∈ signedTerms isFirst e, t.Defined v) ↔ e.Defined v := by
  induction e using tree_induction generalizing isFirst with
  | sum es ih =>
    rw [signedTerms, forall_defined_addendTerms ih, defined_sum]
  | product c vs fs ih =>
    have hparts : (∀ t ∈ vs.map var ++ readings fs, t.Defined v) ↔
        (∀ x ∈ vs, (v x).isSome) ∧ ∀ f ∈ fs, f.Defined v := by
      have hvs : ∀ x ∈ vs, (var x).Defined v ↔ (v x).isSome := by simp [var]
      have hfs : ∀ f ∈ fs, f.reading.Defined v ↔ f.Defined v :=
        fun f hf => defined_joined.trans (ih f hf true)
      rw [readings_eq, List.forall_mem_append, List.forall_mem_map, List.forall_mem_map]
      exact and_congr (forall₂_congr hvs) (forall₂_congr hfs)
    rw [signedTerms, defined_product, ← hparts]
    split
    · simp [defined_neg, defined_productReading]
    · simp [defined_productReading]
  | fraction n d ihn ihd =>
    simp [signedTerms, defined_joined, ihn, ihd, value_joined, sum_signedTerms]

/-- An expression and its reading have the same value wherever one of them has one. -/
theorem eval_reading (e : Expr) (q : Rat) : e.reading.eval v = .ok q ↔ e.eval v = .ok q := by
  rw [eval_eq_ok_iff, eval_eq_ok_iff, reading, defined_joined, forall_defined_signedTerms,
    value_joined, sum_signedTerms]

/-- The text of a printable expression can be read, and what is read has the same value under every
valuation. -/
theorem parse_text_eval {e : Expr} (h : e.Printable) :
    ∃ e', parse e.text = .ok e' ∧ ∀ v q, e'.eval v = .ok q ↔ e.eval v = .ok q :=
  ⟨e.reading, parse_text_eq_reading h, fun _ q => eval_reading e q⟩

/-- A negative product in front of a sum inside a sum, with constants of all shapes. -/
theorem parse_text_eval_nested :
    let e := sum [product (-1) [] [sum [var "x", const (-2)]], sum [product (-3 / 2) ["y"] [],
      fraction (const (-1)) (product 1 ["x", "y"] [])]]
    e.Printable ∧ ∃ e', parse e.text = .ok e' ∧ ∀ v q, e'.eval v = .ok q ↔ e.eval v = .ok q := by
  intro e
  have h : e.Printable := by
    simp [e, printable_sum, printable_product, printable_fraction, var, const, isName]
  exact ⟨h, parse_text_eval h⟩

end Expr

end RationalAlgebra
