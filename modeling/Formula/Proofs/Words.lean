/-
Formula/Proofs/Words.lean

The words of a text of integers, one at a time: numbers, names, labels of functions and
of the predefined operators, and structural marks.  `Scans` says how a part of a text is
scanned in front of a given rest, whatever stands before it; parts are put together with
`Scans.append`.

A text is scanned in one of two situations: where an operand is expected, or after an
operand.  A word that begins an operand is scanned in both, and after an operand a
multiplication is put in front of it, or, if it is a sign, it is taken for the operator
between two operands.  `opening` says this once for all words.

Of a word it matters that nothing continues it.  Names, symbols and marks have no
characters in common, so where one of them begins none of the others does, and the longest
label at the front of a text is found without looking at what comes after the word.
-/
import Formula.Grammar
import Formula.Proofs.Labels
import Formula.Proofs.LongestLiteral
import Formula.Proofs.Updates
import Formula.Reader
import Formula.Scalar.Basic

namespace Formula

variable {V ω : Type}

/-! ### Scanning a part of a text -/

/-- In front of `rest`, and in any text, the characters `s` are scanned as the lexemes `ls`;
`next` is the lexeme before `rest`. -/
def Scans (L : Lexicon V ω) (previous : Option (Lexeme V ω)) (s : List Char)
    (ls : List (Lexeme V ω)) (next : Option (Lexeme V ω)) (rest : List Char) : Prop :=
  ∀ text position, ∃ ts : List (Token V ω), ts.map (·.item) = ls ∧
    L.scan L.dictionary.labels text previous 0 position (s ++ rest) =
      (L.scan L.dictionary.labels text next 0 (position + s.length) rest).map (ts ++ ·)

section

variable {L : Lexicon V ω} {previous middle next : Option (Lexeme V ω)} {s u rest : List Char}
  {ls ks : List (Lexeme V ω)}

theorem Scans.append (h : Scans L previous s ls middle (u ++ rest))
    (hu : Scans L middle u ks next rest) : Scans L previous (s ++ u) (ls ++ ks) next rest := by
  intro text position
  obtain ⟨ts, hts, hs⟩ := h text position
  obtain ⟨us, hus, hu⟩ := hu text (position + s.length)
  refine ⟨ts ++ us, by rw [List.map_append, hts, hus], ?_⟩
  rw [List.append_assoc, hs, hu, List.length_append, Nat.add_assoc]
  cases L.scan L.dictionary.labels text next 0 (position + (s.length + u.length)) rest with
  | error e => rfl
  | ok vs => simp [Except.map]

theorem map_append_nil (e : Except LexicalError (List (Token V ω))) : e.map ([] ++ ·) = e := by
  cases e <;> rfl

theorem Scans.nil : Scans L previous [] [] previous rest :=
  fun _ _ => ⟨[], rfl, (map_append_nil _).symm⟩

theorem Scans.blank : Scans L previous [' '] [] previous rest := by
  intro text position
  have hblank : Text.isBlank ' ' = true := by decide
  refine ⟨[], rfl, ?_⟩
  rw [List.cons_append, Lexicon.scan, if_pos hblank, map_append_nil]
  rfl

/-- One token, with the multiplication that is implied in front of it. -/
theorem Scans.token {c : Char} {t : Lexeme V ω} (hblank : Text.isBlank c = false)
    (hfinds : ∀ before,
      L.Finds L.dictionary.labels before previous c (s ++ rest) t (s.length + 1)) :
    Scans L previous (c :: s)
      ((if endsOperand previous && t.beginsOperand then [.operator .juxtaposition] else []) ++ [t])
      (some t) rest := by
  intro text position
  refine ⟨Lexicon.implied previous t position ++ [⟨t, position⟩], ?_, ?_⟩
  · rw [Lexicon.implied]
    split <;> rfl
  · rw [List.cons_append, Lexicon.scan_word hblank (hfinds _).next, List.length_cons]
    cases L.scan L.dictionary.labels text (some t) 0 (position + (s.length + 1)) rest with
    | error e => rfl
    | ok vs => simp [Except.map]

/-- The tokens of a text that is scanned to its end. -/
theorem Scans.tokens {text : String} (h : Scans L none text.toList ls next []) :
    ∃ ts : List (Token V ω), ts.map (·.item) = ls ∧ L.tokens text = .ok ts := by
  obtain ⟨ts, hts, hscan⟩ := h text.toList 0
  refine ⟨ts, hts, ?_⟩
  rw [List.append_nil, Lexicon.scan] at hscan
  rw [Lexicon.tokens, hscan, Except.map, List.append_nil]

end

/-! ### Words -/

/-- What may follow a word. -/
def Stops (rest : List Char) : Prop := ∀ c ∈ rest.head?, c = ' ' ∨ c = ')' ∨ c = ','

theorem stops_nil : Stops [] := by
  intro c hc
  cases hc

theorem stops_cons {c : Char} {rest : List Char} (h : c = ' ' ∨ c = ')' ∨ c = ',') :
    Stops (c :: rest) := by
  intro d hd
  rw [← Option.some.inj hd]
  exact h

theorem Stops.not_continuesName {rest : List Char} (h : Stops rest) :
    ∀ c ∈ rest.head?, continuesName c = false := by
  intro c hc
  rcases h c hc with rfl | rfl | rfl <;> decide

theorem Stops.not_digit {rest : List Char} (h : Stops rest) :
    ∀ c ∈ rest.head?, Text.isDigit c = false ∧ c ≠ '.' ∧ c ≠ 'e' ∧ c ≠ 'E' := by
  intro c hc
  rcases h c hc with rfl | rfl | rfl <;> decide

/-- Names begin with ASCII letters or an underscore. -/
theorem toNat_of_startsName {c : Char} (h : startsName c = true) :
    65 ≤ c.toNat ∧ c.toNat ≤ 122 := by
  simp only [startsName, Bool.or_eq_true, Bool.and_eq_true, decide_eq_true_eq, beq_iff_eq] at h
  rcases h with (⟨h1, h2⟩ | ⟨h1, h2⟩) | rfl
  · have h1 := UInt32.le_iff_toNat_le.1 h1
    have h2 := UInt32.le_iff_toNat_le.1 h2
    exact ⟨h1, Nat.le_trans h2 (by decide)⟩
  · have h1 := UInt32.le_iff_toNat_le.1 h1
    have h2 := UInt32.le_iff_toNat_le.1 h2
    exact ⟨Nat.le_trans (by decide) h1, h2⟩
  · decide

theorem isBlank_of_startsName {c : Char} (h : startsName c = true) : Text.isBlank c = false := by
  obtain ⟨h1, h2⟩ := toNat_of_startsName h
  simp only [Text.isBlank, Bool.or_eq_false_iff, Bool.and_eq_false_iff, decide_eq_false_iff_not,
    beq_eq_false_iff_ne]
  omega

theorem isDigit_of_startsName {c : Char} (h : startsName c = true) : Text.isDigit c = false := by
  obtain ⟨h1, h2⟩ := toNat_of_startsName h
  have hzeros : ∀ z ∈ Text.zeros, z = 48 ∨ 1632 ≤ z := by decide
  have hfind : (Text.zeros.find? fun z => z ≤ c.toNat && c.toNat < z + 10) = none := by
    refine List.find?_eq_none.2 fun z hz => ?_
    have := hzeros z hz
    simp only [Bool.and_eq_true, decide_eq_true_eq]
    omega
  rw [Text.isDigit, Text.digit?, hfind]
  rfl

theorem ne_point_of_startsName {c : Char} (h : startsName c = true) : c ≠ '.' := by
  rintro rfl
  exact absurd h (by decide)

/-- A name is taken up to the first character that does not continue it. -/
theorem nameAt_append {s rest : List Char} (hs : isName s = true)
    (hrest : ∀ c ∈ rest.head?, continuesName c = false) : nameAt (s ++ rest) = s := by
  cases s with
  | nil => cases hs
  | cons c s =>
    simp only [isName, Bool.and_eq_true, List.all_eq_true] at hs
    rw [List.cons_append, nameAt, if_pos hs.1, List.takeWhile_append_of_pos hs.2]
    cases rest with
    | nil => simp
    | cons d rest => rw [List.takeWhile_cons_of_neg (by simp [hrest d rfl]), List.append_nil]

/-- A name at the front of another name and something that does not continue it is at the
front of that name. -/
theorem prefix_of_isName {s u rest : List Char} (hs : isName s = true)
    (hrest : ∀ c ∈ rest.head?, continuesName c = false) (h : s <+: u ++ rest) : s <+: u := by
  obtain ⟨w, hw⟩ := h
  rcases List.append_eq_append_iff.1 hw with ⟨v, rfl, -⟩ | ⟨v, rfl, rfl⟩
  · exact List.prefix_append ..
  · cases v with
    | nil => simp
    | cons c v =>
      have hc : continuesName c = true := by
        cases u with
        | nil =>
          simp only [List.nil_append, isName, Bool.and_eq_true] at hs
          simp [continuesName, hs.1]
        | cons d u =>
          simp only [List.cons_append, isName, Bool.and_eq_true, List.all_eq_true] at hs
          exact hs.2 c (by simp)
      rw [hrest c rfl] at hc
      cases hc

/-! ### The tokens of integers -/

/-- The lexicon of integers, with the default patterns. -/
def Lexicon.integers (D : Dictionary Scalar ω) : Lexicon Scalar ω :=
  { dictionary := D, convert := Scalar.read .integer }

theorem Lexicon.convert_integers (D : Dictionary Scalar ω) :
    (integers D).convert = Scalar.read .integer :=
  rfl

/-- The reader of integers, with the default patterns and plain texts. -/
def Reader.integers (D : Dictionary Scalar ω) : Reader Scalar ω :=
  { Lexicon.integers D with write := Scalar.text }

/-- A dictionary of users who registered no operators. -/
structure Dictionary.Plain (D : Dictionary V ω) : Prop where
  reachable : D.Reachable
  operators : ∀ label, D.operators.get? label = none

namespace Operator

/-- The operators that are written between two operands. -/
def written : List (Operator ω) :=
  [addition, subtraction, multiplication, division, modulo, exponentiation]

/-- The signs. -/
def signs : List (Operator ω) := [unaryPlus, unaryMinus]

/-- What the label of a sign means after an operand. -/
def afterOperand (op : Operator ω) : Operator ω :=
  if op.label = "+" then addition else subtraction

/-- The characters of the predefined labels. -/
def symbols : List Char := ['+', '-', '*', '/', '%', '^']

theorem forall_symbols {P : Char → Prop} :
    (∀ c ∈ symbols, P c) ↔ P '+' ∧ P '-' ∧ P '*' ∧ P '/' ∧ P '%' ∧ P '^' := by
  simp [symbols]

theorem afterOperand_mem (op : Operator ω) : op.afterOperand ∈ written := by
  rw [afterOperand]
  split <;> simp [written]

theorem isSign_iff [DecidableEq ω] {op : Operator ω} : op.isSign = true ↔ op ∈ signs := by
  simp [isSign, signs]

theorem precedence_of_signs {op : Operator ω} (h : op ∈ signs) : op.precedence = 4 := by
  simp only [signs, List.mem_cons, List.not_mem_nil, or_false] at h
  rcases h with rfl | rfl <;> rfl

theorem label_of_predefined {op : Operator ω} (h : op ∈ written ∨ op ∈ signs) :
    op.label ∈ predefinedLabels := by
  simp only [written, signs, List.mem_cons, List.not_mem_nil, or_false] at h
  rcases h with (rfl | rfl | rfl | rfl | rfl | rfl) | (rfl | rfl) <;>
    simp [predefinedLabels, addition, subtraction, multiplication, division, modulo,
      exponentiation, unaryPlus, unaryMinus]

end Operator

theorem symbol_of_predefined :
    ∀ label ∈ predefinedLabels, ∃ c ∈ Operator.symbols, label.toList = [c] := by
  intro label h
  have hlabels : predefinedLabels = Operator.symbols.map String.singleton := by decide
  rw [hlabels] at h
  obtain ⟨c, hc, rfl⟩ := List.mem_map.1 h
  exact ⟨c, hc, String.toList_singleton c⟩

theorem not_startsName_of_symbol : ∀ c ∈ Operator.symbols, startsName c = false :=
  Operator.forall_symbols.2 (by decide)

namespace Dictionary

variable {D : Dictionary V ω}

theorem Plain.mem_labels (hD : D.Plain) {label : String} :
    label ∈ D.labels ↔ label ∈ predefinedLabels ∨ ∃ f, D.function? label = some f := by
  simp [Dictionary.mem_labels, hD.operators]

/-- Labels are symbols or names. -/
theorem Plain.isName_of_mem_labels (hD : D.Plain) {label : String} (h : label ∈ D.labels) :
    (∃ c ∈ Operator.symbols, label.toList = [c]) ∨ isName label.toList = true := by
  rcases hD.mem_labels.1 h with h | ⟨f, hf⟩
  · exact .inl (symbol_of_predefined label h)
  · exact .inr (hD.reachable.function hf).2

/-- No function has the label of a predefined operator. -/
theorem Reachable.function?_eq_none (hD : D.Reachable) {label : String}
    (h : label ∈ predefinedLabels) : D.function? label = none := by
  obtain ⟨c, hc, hlabel⟩ := symbol_of_predefined label h
  cases hf : D.function? label with
  | none => rfl
  | some f =>
    have := (hD.function hf).2
    simp [hlabel, isName, not_startsName_of_symbol c hc] at this

/-- A symbol is its own label. -/
theorem Plain.label?_symbol (hD : D.Plain) {label : String} {c : Char} (s : List Char)
    (hc : c ∈ Operator.symbols) (hmem : label ∈ predefinedLabels) (hlabel : label.toList = [c]) :
    label? D.labels (c :: s) = some label := by
  refine label?_eq_some D.longestFirst_labels (hD.mem_labels.2 (.inl hmem)) ?_ fun l hl hpre => ?_
  · rw [hlabel]
    exact ⟨s, rfl⟩
  · rw [← String.length_toList, ← String.length_toList, hlabel]
    rcases hD.isName_of_mem_labels hl with ⟨d, -, hd⟩ | hname
    · rw [hd]
      exact Nat.le_refl _
    · obtain ⟨u, hu⟩ := hpre
      cases hls : l.toList with
      | nil => simp
      | cons d ls =>
        rw [hls] at hu hname
        obtain ⟨rfl, -⟩ := List.cons.inj hu
        simp [isName, not_startsName_of_symbol d hc] at hname

/-- Where neither a name nor a symbol begins there is no label. -/
theorem Plain.label?_mark (hD : D.Plain) {c : Char} (s : List Char)
    (hc : isStructural c = true) : label? D.labels (c :: s) = none := by
  refine label?_eq_none fun l hl hpre => ?_
  obtain ⟨u, hu⟩ := hpre
  rcases hD.isName_of_mem_labels hl with ⟨d, hd, hls⟩ | hname
  · rw [hls] at hu
    obtain ⟨rfl, -⟩ := List.cons.inj hu
    have hsymbols : ∀ c ∈ Operator.symbols, isStructural c = false :=
      Operator.forall_symbols.2 (by decide)
    rw [hsymbols d hd] at hc
    cases hc
  · cases hls : l.toList with
    | nil => simp [hls, isName] at hname
    | cons d ls =>
      rw [hls] at hu hname
      obtain ⟨rfl, -⟩ := List.cons.inj hu
      simp only [isStructural, Bool.or_eq_true, beq_iff_eq] at hc
      simp only [isName, Bool.and_eq_true] at hname
      rcases hc with (rfl | rfl) | rfl <;> exact absurd hname.1 (by decide)

/-- The label of a function is found where its name ends. -/
theorem Plain.label?_function (hD : D.Plain) {label : String} {f : Placed (Function ω)}
    (hf : D.function? label = some f) {rest : List Char}
    (hrest : ∀ c ∈ rest.head?, continuesName c = false) :
    label? D.labels (label.toList ++ rest) = some label := by
  refine label?_eq_some D.longestFirst_labels (hD.mem_labels.2 (.inr ⟨f, hf⟩))
    (List.prefix_append ..) fun l hl hpre => ?_
  rw [← String.length_toList, ← String.length_toList]
  rcases hD.isName_of_mem_labels hl with ⟨d, -, hd⟩ | hname
  · have hlabel := (hD.reachable.function hf).2
    cases hls : label.toList with
    | nil => simp [hls, isName] at hlabel
    | cons c cs => simp [hd]
  · exact (prefix_of_isName hname hrest hpre).length_le

/-- There is no label at the front of a name that no function's label begins. -/
theorem Plain.label?_name (hD : D.Plain) {s rest : List Char} (hs : isName s = true)
    (hfree : ∀ label f, D.function? label = some f → ¬ label.toList <+: s)
    (hrest : ∀ c ∈ rest.head?, continuesName c = false) :
    label? D.labels (s ++ rest) = none := by
  refine label?_eq_none fun l hl hpre => ?_
  rcases hD.isName_of_mem_labels hl with ⟨d, hd, hls⟩ | hname
  · rw [hls] at hpre
    obtain ⟨u, hu⟩ := hpre
    cases s with
    | nil => cases hs
    | cons c s =>
      obtain ⟨rfl, -⟩ := List.cons.inj hu
      simp [isName, not_startsName_of_symbol d hd] at hs
  · rcases hD.mem_labels.1 hl with hpredefined | ⟨f, hf⟩
    · have hnames : ∀ l ∈ predefinedLabels, isName l.toList = false := by decide
      rw [hnames l hpredefined] at hname
      cases hname
    · exact hfree l f hf (prefix_of_isName hname hrest hpre)

theorem resolve_function {label : String} {f : Placed (Function ω)}
    (hf : D.function? label = some f) (previous : Option (Lexeme V ω)) :
    D.resolve label previous = some (.function f.item) := by
  rw [resolve, hf]

theorem Reachable.resolve_written (hD : D.Reachable) {op : Operator ω}
    (hop : op ∈ Operator.written) {previous : Option (Lexeme V ω)}
    (hprev : expectsOperand previous = false) :
    D.resolve op.label previous = some (.operator op) := by
  rw [resolve, hD.function?_eq_none (Operator.label_of_predefined (.inl hop)), hprev]
  simp only [Operator.written, List.mem_cons, List.not_mem_nil, or_false] at hop
  rcases hop with rfl | rfl | rfl | rfl | rfl | rfl <;> rfl

theorem Reachable.resolve_sign (hD : D.Reachable) {op : Operator ω}
    (hop : op ∈ Operator.signs) {previous : Option (Lexeme V ω)} {b : Bool}
    (hprev : expectsOperand previous = !b) :
    D.resolve op.label previous = some (.operator (if b then op.afterOperand else op)) := by
  rw [resolve, hD.function?_eq_none (Operator.label_of_predefined (.inr hop)), hprev]
  simp only [Operator.signs, List.mem_cons, List.not_mem_nil, or_false] at hop
  cases b with
  | true => rcases hop with rfl | rfl <;> rfl
  | false => rcases hop with rfl | rfl <;> rfl

end Dictionary

/-! ### Where a word stands -/

/-- An operand has just ended (`after`), or one is expected. -/
structure Stands (after : Bool) (previous : Option (Lexeme V ω)) : Prop where
  ends : endsOperand previous = after
  expects : expectsOperand previous = !after

theorem stands_none : Stands false (none : Option (Lexeme V ω)) := ⟨rfl, rfl⟩

theorem stands_operand (v : V) : Stands true (some (.operand v : Lexeme V ω)) := ⟨rfl, rfl⟩

theorem stands_var (l : String) : Stands true (some (.var l : Lexeme V ω)) := ⟨rfl, rfl⟩

theorem stands_leftParenthesis : Stands false (some (.leftParenthesis : Lexeme V ω)) := ⟨rfl, rfl⟩

theorem stands_rightParenthesis : Stands true (some (.rightParenthesis : Lexeme V ω)) := ⟨rfl, rfl⟩

theorem stands_separator : Stands false (some (.separator : Lexeme V ω)) := ⟨rfl, rfl⟩

theorem stands_operator {op : Operator ω} (h : op.isPostfix = false) :
    Stands false (some (.operator op : Lexeme V ω)) :=
  ⟨h, expectsOperand_operator h⟩

/-- Lexemes of an operand, after another operand. -/
def joined : List (Lexeme V ω) → List (Lexeme V ω)
  | .operator op :: ls => .operator op.afterOperand :: ls
  | ls => .operator .juxtaposition :: ls

theorem joined_append {ls : List (Lexeme V ω)} (h : ls ≠ []) (ks : List (Lexeme V ω)) :
    joined (ls ++ ks) = joined ls ++ ks := by
  cases ls with
  | nil => exact absurd rfl h
  | cons l ls => cases l <;> rfl

/-- Lexemes of an operand, after another operand or where one is expected. -/
def opening (after : Bool) (ls : List (Lexeme V ω)) : List (Lexeme V ω) :=
  if after then joined ls else ls

theorem opening_append {after : Bool} {ls : List (Lexeme V ω)} (h : ls ≠ [])
    (ks : List (Lexeme V ω)) : opening after (ls ++ ks) = opening after ls ++ ks := by
  cases after with
  | false => rfl
  | true => exact joined_append h ks

theorem opening_cons (after : Bool) (l : Lexeme V ω) (ks : List (Lexeme V ω)) :
    opening after (l :: ks) = opening after [l] ++ ks :=
  opening_append (List.cons_ne_nil l []) ks

/-! ### Single words -/

theorem Operator.symbol_of_label {op : Operator ω}
    (h : op ∈ Operator.written ∨ op ∈ Operator.signs) :
    ∃ c ∈ Operator.symbols, op.label.toList = [c] :=
  symbol_of_predefined op.label (Operator.label_of_predefined h)

theorem isBlank_of_symbol : ∀ c ∈ Operator.symbols, Text.isBlank c = false :=
  Operator.forall_symbols.2 (by decide)

theorem literal?_symbol {c : Char} (hc : c ∈ Operator.symbols) (before s : List Char) :
    Matcher.literal? Matcher.defaults before (c :: s) = none := by
  have hdigit : ∀ c ∈ Operator.symbols, Text.isDigit c = false ∧ c ≠ '.' :=
    Operator.forall_symbols.2 (by decide)
  exact Matcher.literal?_eq_none (hdigit c hc).1 (hdigit c hc).2

theorem literal?_name {c : Char} (hc : startsName c = true) (before s : List Char) :
    Matcher.literal? Matcher.defaults before (c :: s) = none :=
  Matcher.literal?_eq_none (isDigit_of_startsName hc) (ne_point_of_startsName hc)

theorem literal?_mark {c : Char} (hc : isStructural c = true) (before s : List Char) :
    Matcher.literal? Matcher.defaults before (c :: s) = none := by
  simp only [isStructural, Bool.or_eq_true, beq_iff_eq] at hc
  rcases hc with (rfl | rfl) | rfl <;> exact Matcher.literal?_eq_none (by decide) (by decide)

theorem nameAt_mark {c : Char} (hc : isStructural c = true) (s : List Char) :
    nameAt (c :: s) = [] := by
  simp only [isStructural, Bool.or_eq_true, beq_iff_eq] at hc
  rcases hc with (rfl | rfl) | rfl <;> rfl

section

variable {L : Lexicon V ω} {after : Bool} {previous : Option (Lexeme V ω)} {rest s : List Char}
  {c : Char} {t : Lexeme V ω} {label : String}

/-- A word that begins an operand and is no sign. -/
theorem Scans.beginning (hprev : endsOperand previous = after) (hbegins : t.beginsOperand = true)
    (hoperator : ∀ op, t ≠ .operator op) (hblank : Text.isBlank c = false)
    (hfinds : ∀ before,
      L.Finds L.dictionary.labels before previous c (s ++ rest) t (s.length + 1)) :
    Scans L previous (c :: s) (opening after [t]) (some t) rest := by
  -- an operand after an operand gets a multiplication in front of it
  have hscans := Scans.token hblank hfinds
  rw [hprev, hbegins, Bool.and_true] at hscans
  cases after with
  | false => exact hscans
  | true =>
    have hjoined : joined [t] = [.operator .juxtaposition, t] := by
      cases t with
      | operator op => exact absurd rfl (hoperator op)
      | _ => rfl
    rw [opening, if_pos rfl, hjoined]
    exact hscans

/-- A word that begins no operand. -/
theorem Scans.other (hbegins : t.beginsOperand = false) (hblank : Text.isBlank c = false)
    (hfinds : ∀ before,
      L.Finds L.dictionary.labels before previous c (s ++ rest) t (s.length + 1)) :
    Scans L previous (c :: s) [t] (some t) rest := by
  have hscans := Scans.token hblank hfinds
  rwa [hbegins, Bool.and_false] at hscans

/-- A name at which no label is found. -/
theorem Scans.name (hpatterns : L.patterns = Matcher.defaults) (hname : isName label.toList = true)
    (hlabel : label? L.dictionary.labels (label.toList ++ rest) = none)
    (hprev : endsOperand previous = after) (hrest : ∀ c ∈ rest.head?, continuesName c = false) :
    Scans L previous label.toList (opening after [.var label]) (some (.var label)) rest := by
  have htaken := nameAt_append hname hrest
  have hword : String.ofList label.toList = label := String.ofList_toList
  cases hletters : label.toList with
  | nil => simp [hletters, isName] at hname
  | cons c s =>
    rw [hletters] at hname hlabel htaken hword
    simp only [isName, Bool.and_eq_true] at hname
    refine .beginning hprev rfl (by simp) (isBlank_of_startsName hname.1) fun before => ?_
    rw [← hword]
    refine .name ?_ hlabel htaken
    rw [hpatterns]
    exact literal?_name hname.1 before _

end

section

variable {D : Dictionary Scalar ω} {after : Bool} {previous : Option (Lexeme Scalar ω)}
  {rest : List Char}

/-- A natural number, in front of something that does not continue it. -/
theorem Scans.number (n : Nat) (hprev : Stands after previous)
    (hrest : ∀ c ∈ rest.head?, Text.isDigit c = false ∧ c ≠ '.' ∧ c ≠ 'e' ∧ c ≠ 'E') :
    Scans (.integers D) previous (Nat.toDigits 10 n) (opening after [.operand (.integer n)])
      (some (.operand (.integer n))) rest := by
  have hcore : ∀ c ∈ Nat.toDigits 10 n, c.isDigit = true :=
    fun c hc => Nat.isDigit_of_mem_toDigits (by decide) (by decide) hc
  have hread : (Lexicon.integers D).convert (String.ofList (Nat.toDigits 10 n)) =
      .ok (.integer n) := by
    rw [Lexicon.convert_integers, ← Nat.toList_repr, String.ofList_toList, Scalar.read,
      Numeral.integer_repr]
    rfl
  have hliteral : ∀ before, Matcher.literal? Matcher.defaults before (Nat.toDigits 10 n ++ rest) =
      some (Nat.toDigits 10 n) :=
    fun _ => Pattern.literal?_digits Nat.toDigits_ne_nil Text.isDigit_toDigits hrest
  obtain ⟨d, ds, hds⟩ := List.exists_cons_of_ne_nil (Nat.toDigits_ne_nil (b := 10) (n := n))
  rw [hds] at hcore hread hliteral ⊢
  refine .beginning hprev.ends rfl (by simp) (Text.isBlank_of_coreDigit (hcore d (by simp)))
    fun before => ?_
  rw [← List.length_cons (a := d)]
  exact .operand (hliteral before) hread

/-- A function, in front of something that does not continue its label. -/
theorem Scans.function (hD : D.Plain) {label : String} {f : Placed (Function ω)}
    (hf : D.function? label = some f) (hprev : Stands after previous)
    (hrest : ∀ c ∈ rest.head?, continuesName c = false) :
    Scans (.integers D) previous label.toList (opening after [.function f.item])
      (some (.function f.item)) rest := by
  have hname := (hD.reachable.function hf).2
  have hlabel := hD.label?_function hf hrest
  have hlength : label.length = label.toList.length := String.length_toList.symm
  cases hls : label.toList with
  | nil => simp [hls, isName] at hname
  | cons c cs =>
    rw [hls] at hname hlabel hlength
    simp only [isName, Bool.and_eq_true] at hname
    refine .beginning hprev.ends rfl (by simp) (isBlank_of_startsName hname.1) fun before => ?_
    rw [← List.length_cons (a := c), ← hlength]
    exact .label (literal?_name hname.1 before _) hlabel (D.resolve_function hf previous)

/-- A variable. -/
theorem Scans.var (hD : D.Plain) {label : String} (hname : isName label.toList = true)
    (hfree : ∀ k f, D.function? k = some f → ¬ k.toList <+: label.toList)
    (hprev : Stands after previous) (hrest : Stops rest) :
    Scans (.integers D) previous label.toList (opening after [.var label])
      (some (.var label)) rest :=
  .name rfl hname (hD.label?_name hname hfree hrest.not_continuesName) hprev.ends
    hrest.not_continuesName

/-- What is found at a structural mark. -/
theorem finds_mark (hD : D.Plain) {c : Char} (hc : isStructural c = true) (s before : List Char) :
    (Lexicon.integers D).Finds D.labels before previous c s (.punctuation (String.singleton c)) 1 :=
  .mark (literal?_mark hc before s) (hD.label?_mark s hc) (nameAt_mark hc s) hc

/-- What is found at the symbol of a predefined operator. -/
theorem finds_symbol (hD : D.Plain) {op : Operator ω}
    (hop : op ∈ Operator.written ∨ op ∈ Operator.signs) {c : Char} (hc : c ∈ Operator.symbols)
    (hlabel : op.label.toList = [c]) {t : Lexeme Scalar ω}
    (hresolve : D.resolve op.label previous = some t) (s before : List Char) :
    (Lexicon.integers D).Finds D.labels before previous c s t 1 := by
  have hlength : op.label.length = 1 := by
    rw [← String.length_toList, hlabel]
    rfl
  rw [← hlength]
  exact .label (literal?_symbol hc before s)
    (hD.label?_symbol s hc (Operator.label_of_predefined hop) hlabel) hresolve

theorem Scans.leftParenthesis (hD : D.Plain) (hprev : endsOperand previous = after) :
    Scans (.integers D) previous ['('] (opening after [.leftParenthesis])
      (some .leftParenthesis) rest :=
  .beginning hprev rfl (by simp [Lexeme.leftParenthesis]) (by decide) (finds_mark hD rfl _)

theorem Scans.rightParenthesis (hD : D.Plain) :
    Scans (.integers D) previous [')'] [.rightParenthesis] (some .rightParenthesis) rest :=
  .other rfl (by decide) (finds_mark hD rfl _)

theorem Scans.separator (hD : D.Plain) :
    Scans (.integers D) previous [','] [.separator] (some .separator) rest :=
  .other rfl (by decide) (finds_mark hD rfl _)

theorem not_isPostfix_of_predefined {op : Operator ω}
    (h : op ∈ Operator.written ∨ op ∈ Operator.signs) : op.isPostfix = false := by
  simp only [Operator.written, Operator.signs, List.mem_cons, List.not_mem_nil, or_false] at h
  rcases h with (rfl | rfl | rfl | rfl | rfl | rfl) | (rfl | rfl) <;> rfl

theorem isBinary_of_written {op : Operator ω} (h : op ∈ Operator.written) :
    op.isBinary = true := by
  simp only [Operator.written, List.mem_cons, List.not_mem_nil, or_false] at h
  rcases h with rfl | rfl | rfl | rfl | rfl | rfl <;> rfl

theorem isPrefix_of_signs {op : Operator ω} (h : op ∈ Operator.signs) : op.isPrefix = true := by
  simp only [Operator.signs, List.mem_cons, List.not_mem_nil, or_false] at h
  rcases h with rfl | rfl <;> rfl

theorem isSign_of_isBinary [DecidableEq ω] {op : Operator ω} (h : op.isBinary = true) :
    op.isSign = false := by
  cases hsign : op.isSign with
  | false => rfl
  | true =>
    have hprefix := isPrefix_of_signs (Operator.isSign_iff.1 hsign)
    rw [Operator.isBinary_of_isPrefix hprefix] at h
    cases h

/-- An operator between two operands. -/
theorem Scans.written (hD : D.Plain) {op : Operator ω} (hop : op ∈ Operator.written)
    (hprev : Stands true previous) :
    Scans (.integers D) previous op.label.toList [.operator op] (some (.operator op)) rest := by
  obtain ⟨c, hc, hlabel⟩ := Operator.symbol_of_label (.inl hop)
  have hbegins : (Lexeme.operator op : Lexeme Scalar ω).beginsOperand = false :=
    Operator.isPrefix_of_isBinary (isBinary_of_written hop)
  rw [hlabel]
  have hresolve := hD.reachable.resolve_written hop hprev.expects
  exact .other hbegins (isBlank_of_symbol c hc) (finds_symbol hD (.inl hop) hc hlabel hresolve _)

/-- A sign, or what its label means after an operand. -/
theorem Scans.sign (hD : D.Plain) {op : Operator ω} (hop : op ∈ Operator.signs)
    (hprev : Stands after previous) :
    ∃ t : Lexeme Scalar ω, Stands false (some t) ∧
      Scans (.integers D) previous op.label.toList (opening after [.operator op]) (some t)
        rest := by
  obtain ⟨c, hc, hlabel⟩ := Operator.symbol_of_label (.inr hop)
  have hresolve := hD.reachable.resolve_sign hop hprev.expects
  have hfinds := finds_symbol hD (.inr hop) hc hlabel hresolve ([] ++ rest)
  rw [hlabel]
  cases after with
  | false =>
    refine ⟨_, stands_operator (not_isPostfix_of_predefined (.inr hop)), ?_⟩
    have hscans := Scans.token (isBlank_of_symbol c hc) hfinds
    rwa [hprev.ends, Bool.false_and] at hscans
  | true =>
    have hwritten := op.afterOperand_mem
    refine ⟨.operator op.afterOperand,
      stands_operator (not_isPostfix_of_predefined (.inl hwritten)),
      .other (Operator.isPrefix_of_isBinary (isBinary_of_written hwritten))
        (isBlank_of_symbol c hc) hfinds⟩

end

end Formula
