import Mathlib
import RationalAlgebra.Expr.Lexeme

/-!
# How tokens are written

A text spells a list of tokens if it consists of their spellings, one after another, with any amount
of space before, between and behind them. Every text spells the tokens that are scanned from it, and
can be cut between any two of its lexemes into texts that spell those before and those behind. A
text can spell other lists as well, since a number can be cut into shorter ones; but among the lists
in which no two numbers or names are neighbours it spells at most one, and that one is scanned.

Main statements: `exists_spells_of_scan`, `spells_scan` and `Spells.tokens_scan`.
-/

namespace RationalAlgebra

/-- Whether a text is a letter of ASCII followed by letters and digits of ASCII. -/
def isName (x : String) : Bool :=
  x.toList.head?.any Char.isAlpha && x.toList.all Char.isAlphanum

/-- The ways to write a token: a number with any digits that denote it, a name as it is, and any
other character that is no space as itself. -/
inductive Token.Spelling : Token → List Char → Prop
  | number {digits : List Char} (hne : digits ≠ []) (h : ∀ c ∈ digits, c.isDigit = true) :
      Spelling (.number (Nat.ofDigitChars 10 digits 0)) digits
  | name {x : String} (h : isName x = true) : Spelling (.name x) x.toList
  | symbol {c : Char} (hspace : Lexeme.isSpace c = false) (hword : c.isAlphanum = false) :
      Spelling (.symbol c) [c]

/-- Some tokens written one after another, with space around them. -/
inductive Spells : List Token → List Char → Prop
  | nil {gap : List Char} (hgap : ∀ c ∈ gap, Lexeme.isSpace c = true) : Spells [] gap
  | cons {gap word rest : List Char} {t : Token} {ts : List Token}
      (hgap : ∀ c ∈ gap, Lexeme.isSpace c = true) (hword : t.Spelling word)
      (hrest : Spells ts rest) : Spells (t :: ts) (gap ++ word ++ rest)

/-! ## Characters -/

theorem isAlphanum_of_isDigit {c : Char} (h : c.isDigit = true) : c.isAlphanum = true := by
  rw [Char.isAlphanum, h, Bool.or_true]

theorem isAlphanum_of_isAlpha {c : Char} (h : c.isAlpha = true) : c.isAlphanum = true := by
  rw [Char.isAlphanum, h, Bool.true_or]

theorem isAlphanum_of_isSpace {c : Char} (h : Lexeme.isSpace c = true) : c.isAlphanum = false := by
  simp only [Lexeme.isSpace, Bool.or_eq_true, decide_eq_true_eq] at h
  rcases h with ((rfl | rfl) | rfl) | rfl <;> decide

theorem isSpace_of_isAlphanum {c : Char} (h : c.isAlphanum = true) : Lexeme.isSpace c = false := by
  by_contra hspace
  rw [Bool.not_eq_false] at hspace
  rw [isAlphanum_of_isSpace hspace] at h
  cases h

theorem isDigit_of_isAlpha {c : Char} (h : c.isAlpha = true) : c.isDigit = false := by
  simp only [Char.isAlpha, Char.isUpper, Char.isLower, Char.isDigit, Bool.or_eq_true,
    Bool.and_eq_true, decide_eq_true_eq, Bool.and_eq_false_iff, decide_eq_false_iff_not,
    UInt32.le_iff_toNat_le, ge_iff_le] at h ⊢
  have hnine : '9'.val.toNat = 57 := rfl
  have hupper : 'A'.val.toNat = 65 := rfl
  have hlower : 'a'.val.toNat = 97 := rfl
  omega

/-- Neither a number nor a name goes on with this text. -/
def NoWord (text : List Char) : Prop :=
  ∀ c ∈ text.head?, c.isAlphanum = false

/-- A run of digits or letters takes nothing from a text that begins with neither. -/
theorem takeWhile_of_noWord {p : Char → Bool} (hp : ∀ c, p c = true → c.isAlphanum = true)
    {text : List Char} (h : NoWord text) : text.takeWhile p = [] ∧ text.dropWhile p = text := by
  cases text with
  | nil => exact ⟨rfl, rfl⟩
  | cons c rest =>
    have hc : p c = false := by
      by_contra hnot
      rw [Bool.not_eq_false] at hnot
      have hword := h c rfl
      rw [hp c hnot] at hword
      cases hword
    simp [hc]

/-- A run of characters ends where no word goes on. -/
theorem takeWhile_append_of_noWord {p : Char → Bool} (hp : ∀ c, p c = true → c.isAlphanum = true)
    {word text : List Char} (hword : ∀ c ∈ word, p c = true) (h : NoWord text) :
    (word ++ text).takeWhile p = word ∧ (word ++ text).dropWhile p = text := by
  obtain ⟨htake, hdrop⟩ := takeWhile_of_noWord hp h
  constructor
  · rw [List.takeWhile_append_of_pos hword, htake, List.append_nil]
  · rw [List.dropWhile_append_of_pos hword, hdrop]

/-! ## Scanning -/

/-- Spaces may come before any spelling. -/
theorem Spells.gap_append {gap text : List Char} {ts : List Token}
    (hgap : ∀ c ∈ gap, Lexeme.isSpace c = true) (h : Spells ts text) : Spells ts (gap ++ text) := by
  cases h with
  | nil hgap' => exact Spells.nil (List.forall_mem_append.2 ⟨hgap, hgap'⟩)
  | cons hgap' hword hrest =>
    rw [List.append_assoc, ← List.append_assoc, ← List.append_assoc]
    exact Spells.cons (List.forall_mem_append.2 ⟨hgap, hgap'⟩) hword hrest

/-- Spellings one behind the other. Nothing keeps the last word of the first apart from the first of
the second: that a scanner finds the same tokens is another matter. -/
theorem Spells.append {s t : List Char} {ts us : List Token} (hs : Spells ts s) (ht : Spells us t) :
    Spells (ts ++ us) (s ++ t) := by
  induction hs with
  | nil hgap => exact ht.gap_append hgap
  | cons hgap hword _ ih =>
    rw [List.append_assoc]
    exact Spells.cons hgap hword ih

theorem spells_nil : Spells [] [] :=
  Spells.nil (by simp)

/-- A word spells its token. -/
theorem Token.Spelling.spells {t : Token} {word : List Char} (h : t.Spelling word) :
    Spells [t] word := by
  have hgap : ∀ c ∈ ([] : List Char), Lexeme.isSpace c = true := by simp
  have hspells := Spells.cons hgap h spells_nil
  rwa [List.append_nil, List.nil_append] at hspells

/-- What spells a token begins with a character that is no space. -/
theorem Token.Spelling.exists_cons {t : Token} {word : List Char} (h : t.Spelling word) :
    ∃ c cs, word = c :: cs ∧ Lexeme.isSpace c = false := by
  -- No kind of token has an empty word: digits are at least one, a name has a first letter, and a
  -- symbol is one character.
  cases h with
  | number hne hdigits =>
    obtain ⟨c, cs, rfl⟩ := List.exists_cons_of_ne_nil hne
    have hword := isAlphanum_of_isDigit (hdigits c List.mem_cons_self)
    exact ⟨c, cs, rfl, isSpace_of_isAlphanum hword⟩
  | @name x hname =>
    obtain ⟨hfirst, hall⟩ := Bool.and_eq_true_iff.1 hname
    cases hx : x.toList with
    | nil =>
      rw [hx] at hfirst
      cases hfirst
    | cons c cs =>
      rw [hx, List.all_eq_true] at hall
      exact ⟨c, cs, rfl, isSpace_of_isAlphanum (hall c List.mem_cons_self)⟩
  | symbol hspace _ => exact ⟨_, [], rfl, hspace⟩

/-- The names that are spelled are those of a text. -/
theorem Spells.isName_of_mem {text : List Char} {ts : List Token} (h : Spells ts text) {x : String}
    (hx : .name x ∈ ts) : isName x = true := by
  induction h with
  | nil _ => simp at hx
  | cons _ hword _ ih =>
    rcases List.mem_cons.1 hx with rfl | hmem
    · cases hword with
      | name hname => exact hname
    · exact ih hmem

/-- What is neither space nor part of a number or name is a symbol. -/
theorem Spells.symbol_mem {text : List Char} {ts : List Token} (h : Spells ts text) {c : Char}
    (hc : c ∈ text) (hspace : Lexeme.isSpace c = false) (hword : c.isAlphanum = false) :
    .symbol c ∈ ts := by
  have hgap : ∀ gap : List Char, (∀ d ∈ gap, Lexeme.isSpace d = true) → c ∉ gap := by
    intro gap hgap hmem
    rw [hgap c hmem] at hspace
    cases hspace
  induction h with
  | nil hspaces => exact absurd hc (hgap _ hspaces)
  | @cons gap word rest t ts hspaces hspelling _ ih =>
    simp only [List.mem_append] at hc
    -- The character stands in the gap, in the word or behind the word. A gap has only spaces.
    rcases hc with (hc | hc) | hc
    · exact absurd hc (hgap _ hspaces)
    · -- Numbers and names have only letters and digits, so the word is the symbol itself.
      cases hspelling with
      | number _ hdigits =>
        rw [isAlphanum_of_isDigit (hdigits c hc)] at hword
        cases hword
      | name hname =>
        rw [isName, Bool.and_eq_true, List.all_eq_true] at hname
        rw [hname.2 c hc] at hword
        cases hword
      | symbol _ _ =>
        rw [List.mem_singleton.1 hc]
        exact List.mem_cons_self
    · exact List.mem_cons_of_mem t (ih hc)

namespace Lexeme

theorem cons_eq_run_append (p : Char → Bool) (c : Char) (rest : List Char) :
    (c :: rest.takeWhile p) ++ rest.dropWhile p = c :: rest := by
  rw [List.cons_append, List.takeWhile_append_dropWhile]

/-- A text is space throughout and has no lexemes, or its first lexeme stands behind some space and
the others are those of the text behind it. -/
theorem scan_cases (text : List Char) :
    (scan text = [] ∧ ∀ c ∈ text, isSpace c = true) ∨
      ∃ gap word rest t, text = gap ++ word ++ rest ∧ (∀ c ∈ gap, isSpace c = true) ∧
        Token.Spelling t word ∧ scan text = ⟨t, word ++ rest⟩ :: scan rest := by
  have hnone : ∀ c ∈ ([] : List Char), isSpace c = true := by simp
  -- One case for each test the scanner makes: nothing left, a space, a digit, a letter, anything
  -- else.
  fun_induction scan text with
  | case1 => exact Or.inl ⟨rfl, hnone⟩
  | case2 c rest hspace ih =>
    -- The space joins the gap before the next word.
    rcases ih with ⟨hscan, hgap⟩ | ⟨gap, word, rest, t, rfl, hgap, hword, hscan⟩
    · exact Or.inl ⟨hscan, List.forall_mem_cons.2 ⟨hspace, hgap⟩⟩
    · refine Or.inr ⟨c :: gap, word, rest, t, rfl, ?_, hword, hscan⟩
      exact List.forall_mem_cons.2 ⟨hspace, hgap⟩
  | case3 c rest _ hdigit value _ =>
    have hdigits : ∀ d ∈ c :: rest.takeWhile Char.isDigit, d.isDigit = true :=
      List.forall_mem_cons.2 ⟨hdigit, fun d hd => List.mem_takeWhile_imp hd⟩
    have hword := Token.Spelling.number (List.cons_ne_nil _ _) hdigits
    refine Or.inr ⟨[], _, rest.dropWhile Char.isDigit, _, ?_, hnone, hword, ?_⟩
    · rw [List.nil_append, cons_eq_run_append]
    · rw [cons_eq_run_append]
  | case4 c rest _ _ halpha name _ =>
    have hname : isName name = true := by
      simp only [isName, name, String.toList_ofList, List.head?_cons, Option.any_some, halpha,
        List.all_cons, isAlphanum_of_isAlpha halpha, Bool.true_and, List.all_takeWhile]
    have hword := Token.Spelling.name hname
    rw [String.toList_ofList] at hword
    refine Or.inr ⟨[], _, rest.dropWhile Char.isAlphanum, _, ?_, hnone, hword, ?_⟩
    · rw [List.nil_append, cons_eq_run_append]
    · rw [cons_eq_run_append]
  | case5 c rest hspace hdigit halpha _ =>
    have hword : c.isAlphanum = false := by
      rw [Char.isAlphanum, Bool.or_eq_false_iff]
      exact ⟨by simpa using halpha, by simpa using hdigit⟩
    have hsymbol := Token.Spelling.symbol (by simpa using hspace) hword
    exact Or.inr ⟨[], [c], rest, _, rfl, hnone, hsymbol, rfl⟩

/-- A text can be cut between any two of its lexemes: its first part spells the tokens before, and
the lexemes behind are those of the other. -/
theorem exists_spells_of_scan {text : List Char} {front after : List Lexeme}
    (h : scan text = front ++ after) :
    ∃ before behind, text = before ++ behind ∧ Spells (front.map token) before ∧
      scan behind = after := by
  induction front generalizing text with
  | nil => exact ⟨[], text, rfl, spells_nil, h⟩
  | cons l front ih =>
    -- The first lexeme has its word at the front, and the induction splits what is behind it.
    rcases scan_cases text with ⟨hnil, _⟩ | ⟨gap, word, rest, t, rfl, hgap, hword, hscan⟩
    · rw [hnil] at h
      cases h
    · rw [hscan, List.cons_append] at h
      injection h with hl hrest
      obtain ⟨before, behind, rfl, hspells, hbehind⟩ := ih hrest
      refine ⟨gap ++ word ++ before, behind, ?_, ?_, hbehind⟩
      · rw [List.append_assoc (gap ++ word)]
      · rw [← hl, List.map_cons]
        exact Spells.cons hgap hword hspells

/-- Every text spells its tokens. -/
theorem spells_scan (text : List Char) : Spells ((scan text).map token) text := by
  obtain ⟨before, behind, htext, hspells, hnil⟩ :=
    exists_spells_of_scan (List.append_nil (scan text)).symm
  rcases scan_cases behind with ⟨_, hgap⟩ | ⟨_, _, _, _, _, _, _, hcons⟩
  · have hwhole := hspells.append (Spells.nil hgap)
    rwa [List.append_nil, ← htext] at hwhole
  · rw [hnil] at hcons
    cases hcons

/-- A lexeme keeps the text from its first character on, which is no space. -/
theorem exists_source_of_scan {text : List Char} {next : Lexeme} {after : List Lexeme}
    (h : scan text = next :: after) :
    ∃ gap c cs, text = gap ++ next.source ∧ (∀ d ∈ gap, isSpace d = true) ∧
      next.source = c :: cs ∧ isSpace c = false := by
  rcases scan_cases text with ⟨hnil, _⟩ | ⟨gap, word, rest, t, rfl, hgap, hword, hscan⟩
  · rw [hnil] at h
    cases h
  · rw [hscan] at h
    cases h
    obtain ⟨c, cs, rfl, hc⟩ := hword.exists_cons
    exact ⟨gap, c, cs ++ rest, List.append_assoc _ _ _, hgap, rfl, hc⟩

theorem scan_gap {gap : List Char} (hgap : ∀ c ∈ gap, isSpace c = true) (text : List Char) :
    scan (gap ++ text) = scan text := by
  induction gap with
  | nil => rfl
  | cons c gap ih =>
    obtain ⟨hc, hrest⟩ := List.forall_mem_cons.1 hgap
    rw [List.cons_append, scan, if_pos hc, ih hrest]

/-- What spells one token is scanned as that token if no word goes on behind it. -/
theorem tokens_scan_word {t : Token} {word text : List Char} (h : t.Spelling word)
    (htext : (∃ c, t = .symbol c) ∨ NoWord text) :
    (scan (word ++ text)).map token = t :: (scan text).map token := by
  cases h with
  | number hne hdigits =>
    -- Without `htext` the text could begin with more digits, which would be scanned as well.
    have hnoWord : NoWord text := by simpa using htext
    obtain ⟨c, digits, rfl⟩ := List.exists_cons_of_ne_nil hne
    obtain ⟨hc, hrest⟩ := List.forall_mem_cons.1 hdigits
    have hspace := isSpace_of_isAlphanum (isAlphanum_of_isDigit hc)
    obtain ⟨htake, hdrop⟩ :=
      takeWhile_append_of_noWord (fun _ => isAlphanum_of_isDigit) hrest hnoWord
    rw [List.cons_append, scan, if_neg (by simp [hspace]), if_pos hc]
    simp only [htake, hdrop, List.map_cons]
  | name hname =>
    rename_i x
    -- A name likewise must end where its word does.
    have hnoWord : NoWord text := by simpa using htext
    obtain ⟨hfirst, hall⟩ := Bool.and_eq_true_iff.1 hname
    obtain ⟨c, rest, hx⟩ : ∃ c rest, x.toList = c :: rest := by
      apply List.exists_cons_of_ne_nil
      intro hnil
      rw [hnil] at hfirst
      cases hfirst
    rw [hx, List.head?_cons, Option.any_some] at hfirst
    rw [hx, List.all_eq_true, List.forall_mem_cons] at hall
    have hspace := isSpace_of_isAlphanum hall.1
    have hdigit := isDigit_of_isAlpha hfirst
    obtain ⟨htake, hdrop⟩ := takeWhile_append_of_noWord (fun _ => id) hall.2 hnoWord
    rw [hx, List.cons_append, scan, if_neg (by simp [hspace]), if_neg (by simp [hdigit]),
      if_pos hfirst]
    simp only [htake, hdrop, List.map_cons, ← hx, String.ofList_toList]
  | symbol hspace hword =>
    rw [Char.isAlphanum, Bool.or_eq_false_iff] at hword
    rw [List.singleton_append, scan, if_neg (by simp [hspace]), if_neg (by simp [hword.2]),
      if_neg (by simp [hword.1])]
    rfl

end Lexeme

/-! ## Tokens that stay apart -/

/-- No two numbers or names are neighbours. -/
def Separated (ts : List Token) : Prop :=
  ts.IsChain fun t u => (∃ c, t = .symbol c) ∨ ∃ c, u = .symbol c

/-- A symbol may stand between any two tokens. -/
theorem separated_append_symbol {ts us : List Token} (hts : Separated ts) (hus : Separated us)
    (c : Char) : Separated (ts ++ .symbol c :: us) := by
  rw [Separated, List.isChain_append, List.isChain_cons]
  refine ⟨hts, ⟨fun u _ => Or.inl ⟨c, rfl⟩, hus⟩, fun t _ u hu => Or.inr ⟨c, ?_⟩⟩
  rw [List.head?_cons, Option.mem_some] at hu
  exact hu.symm

/-- Where the next token is no number or name, no word goes on. -/
theorem Spells.noWord {ts : List Token} {text : List Char} (h : Spells ts text)
    (hts : ∀ t ∈ ts.head?, ∃ c, t = .symbol c) : NoWord text := by
  intro d hd
  cases h with
  | nil hgap => exact isAlphanum_of_isSpace (hgap d (List.mem_of_head? hd))
  | @cons gap word rest t ts hgap hword hrest =>
    obtain ⟨c, rfl⟩ := hts _ rfl
    cases hword with
    | symbol hspace hword =>
      -- The text begins with a space or with the symbol.
      cases gap with
      | nil =>
        simp only [List.nil_append, List.cons_append, List.head?_cons, Option.mem_some] at hd
        exact hd ▸ hword
      | cons e gap =>
        simp only [List.cons_append, List.head?_cons, Option.mem_some] at hd
        exact hd ▸ isAlphanum_of_isSpace (hgap e List.mem_cons_self)

/-- Among the lists that a text spells, the one without neighbouring words is scanned. -/
theorem Spells.tokens_scan {ts : List Token} {text : List Char} (h : Spells ts text)
    (hts : Separated ts) : (Lexeme.scan text).map Lexeme.token = ts := by
  induction h with
  | nil hgap =>
    have hscan := Lexeme.scan_gap hgap []
    rw [List.append_nil] at hscan
    rw [hscan, Lexeme.scan, List.map_nil]
  | @cons gap word rest t ts hgap hword hrest ih =>
    rw [Separated, List.isChain_cons] at hts
    obtain ⟨hnext, htail⟩ := hts
    rw [List.append_assoc, Lexeme.scan_gap hgap, Lexeme.tokens_scan_word hword, ih htail]
    -- A symbol ends by itself; a number or a name ends because a symbol follows.
    by_cases hsymbol : ∃ c, t = .symbol c
    · exact Or.inl hsymbol
    · exact Or.inr (hrest.noWord fun u hu => (hnext u hu).resolve_left hsymbol)

end RationalAlgebra
