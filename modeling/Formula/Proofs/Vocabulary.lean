/-
Formula/Proofs/Vocabulary.lean

The words of a text for any dictionary that can be reached, with the default patterns.  In front
of a break every label is found as it is: no label has a break in it, so none that begins the
text is longer (`label?_self`).  What the label means depends on the place only.

`Lexes` says that a part of a text is scanned as the given lexemes wherever an operand is
expected and a break comes after it.  It is put together as texts are: parentheses, operators
before and between operands, and calls.
-/
import Formula.Proofs.Breaks
import Formula.Proofs.Printing

namespace Formula

variable {V ω : Type}

/-! ### Labels -/

namespace Dictionary

variable {D : Dictionary V ω} {label : String} {previous : Option (Lexeme V ω)}

/-- A label begins like no literal, and not with a blank. -/
theorem Reachable.first_letter (hD : D.Reachable) (h : label ∈ D.labels) :
    ∃ c u, label.toList = c :: u ∧ Text.isBlank c = false ∧ Text.isDigit c = false ∧ c ≠ '.' := by
  rcases Dictionary.mem_labels.1 h with h | ⟨s, hs⟩ | ⟨f, hf⟩
  · obtain ⟨c, hc, hletters⟩ := symbol_of_predefined label h
    have hdigit : ∀ c ∈ Operator.symbols, Text.isDigit c = false ∧ c ≠ '.' :=
      Operator.forall_symbols.2 (by decide)
    exact ⟨c, [], hletters, isBlank_of_symbol c hc, hdigit c hc⟩
  · have hvalid := (hD.operators hs).1
    cases hletters : label.toList with
    | nil =>
      rw [hletters] at hvalid
      cases hvalid
    | cons c u =>
      rw [hletters] at hvalid
      simp only [isOperatorLabel, List.all_cons, Bool.and_eq_true, Bool.not_eq_true', bne_iff_ne,
        ne_eq] at hvalid
      obtain ⟨⟨hdigit, hpoint⟩, ⟨hblank, -⟩, -⟩ := hvalid
      refine ⟨c, u, rfl, hblank, ?_, hpoint⟩
      cases hc : Text.isDigit c with
      | false => rfl
      | true =>
        rw [Text.isDigitLike_of_isDigit hc] at hdigit
        cases hdigit
  · have hname := (hD.function hf).2
    cases hletters : label.toList with
    | nil =>
      rw [hletters] at hname
      cases hname
    | cons c u =>
      rw [hletters] at hname
      simp only [isName, Bool.and_eq_true] at hname
      exact ⟨c, u, rfl, isBlank_of_startsName hname.1, isDigit_of_startsName hname.1,
        ne_point_of_startsName hname.1⟩

/-- In front of a break a label is found as it is. -/
theorem Reachable.label?_self (hD : D.Reachable) (h : label ∈ D.labels) {rest : List Char}
    (hrest : Broken rest) : label? D.labels (label.toList ++ rest) = some label := by
  refine label?_eq_some D.longestFirst_labels h (List.prefix_append ..) fun l hl hpre => ?_
  rw [← String.length_toList, ← String.length_toList]
  exact (prefix_of_unbroken (hD.isBreak_of_mem_labels hl) hrest hpre).length_le

/-- In front of a break there is no label at the front of something that no label begins. -/
theorem Reachable.label?_free (hD : D.Reachable) {s rest : List Char}
    (hfree : ∀ l ∈ D.labels, ¬ l.toList <+: s) (hrest : Broken rest) :
    label? D.labels (s ++ rest) = none :=
  label?_eq_none fun l hl hpre =>
    hfree l hl (prefix_of_unbroken (hD.isBreak_of_mem_labels hl) hrest hpre)

/-- The label of an operator is no label of a function. -/
theorem Reachable.function?_of_operator? (hD : D.Reachable) {slot : Slot}
    {op : Placed (Operator ω)} (h : D.operator? label slot = some op) :
    D.function? label = none := by
  rw [operator?] at h
  split at h
  · next s hs => exact hD.function?_eq_none (mem_predefinedLabels hs)
  · obtain ⟨s, hs, -⟩ := Option.bind_eq_some_iff.1 h
    exact hD.function?_of_operators hs

/-- Where its slot is looked at first, a label means the operator in it. -/
theorem Reachable.resolve_operator (hD : D.Reachable) (after : Bool) {op : Placed (Operator ω)}
    (h : D.operator? label (if after then .after else .before) = some op)
    (hprev : expectsOperand previous = !after) :
    D.resolve label previous = some (.operator op.item) := by
  rw [resolve, hD.function?_of_operator? h, hprev]
  cases after with
  | false =>
    simp only [Bool.false_eq_true, if_false] at h
    simp only [Bool.not_false, if_true, h]
  | true =>
    simp only [if_true] at h
    simp only [Bool.not_true, Bool.false_eq_true, if_false, h]

end Dictionary

/-! ### Single words -/

namespace Lexicon

/-- Any dictionary that can be reached, with the default patterns. -/
structure Standard (L : Lexicon V ω) : Prop where
  reachable : L.dictionary.Reachable
  patterns : L.patterns = Matcher.defaults

theorem Standard.unbroken {L : Lexicon V ω} (h : L.Standard) : L.Unbroken where
  reachable := h.reachable
  patterns := ⟨_, h.patterns, Pattern.unbroken_defaults⟩

end Lexicon

section

variable {L : Lexicon V ω} {previous : Option (Lexeme V ω)} {label : String} {t : Lexeme V ω}
  {c : Char} {before rest s : List Char}

/-- No literal begins where a label does. -/
theorem Lexicon.Standard.literal?_label (hL : L.Standard) (h : label ∈ L.dictionary.labels)
    (hbegins : label.toList <+: c :: s) : Matcher.literal? L.patterns before (c :: s) = none := by
  obtain ⟨d, u, hletters, -, hdigit, hpoint⟩ := hL.reachable.first_letter h
  rw [hletters] at hbegins
  obtain ⟨rfl, -⟩ := List.cons_prefix_cons.1 hbegins
  rw [hL.patterns]
  exact Matcher.literal?_eq_none hdigit hpoint

/-- No label begins with a break. -/
theorem Lexicon.Standard.label?_break (hL : L.Standard) (hc : isBreak c = true) (s : List Char) :
    label? L.dictionary.labels (c :: s) = none := by
  refine label?_eq_none fun l hl hpre => ?_
  obtain ⟨d, u, hletters, -⟩ := hL.reachable.first_letter hl
  have hbreak := hL.reachable.isBreak_of_mem_labels hl
  rw [hletters] at hpre hbreak
  obtain ⟨rfl, -⟩ := List.cons_prefix_cons.1 hpre
  rw [hbreak d (List.mem_cons_self ..)] at hc
  cases hc

/-- A structural mark is found as it is. -/
theorem Lexicon.Standard.finds_mark (hL : L.Standard) (hc : isStructural c = true)
    (s before : List Char) :
    L.Finds L.dictionary.labels before previous c s (.punctuation (String.singleton c)) 1 := by
  have hbreak : isBreak c = true := by rw [isBreak, hc, Bool.or_true]
  refine .mark ?_ (hL.label?_break hbreak s) (nameAt_mark hc s) hc
  rw [hL.patterns]
  exact literal?_mark hc before s

theorem Lexicon.Standard.scans_leftParenthesis (hL : L.Standard)
    (hprev : endsOperand previous = false) :
    Scans L previous ['('] [.leftParenthesis] (some .leftParenthesis) rest :=
  Scans.beginning hprev rfl (by simp [Lexeme.leftParenthesis]) (by decide) (hL.finds_mark rfl _)

theorem Lexicon.Standard.scans_rightParenthesis (hL : L.Standard) :
    Scans L previous [')'] [.rightParenthesis] (some .rightParenthesis) rest :=
  .other rfl (by decide) (hL.finds_mark rfl _)

theorem Lexicon.Standard.scans_separator (hL : L.Standard) :
    Scans L previous [','] [.separator] (some .separator) rest :=
  .other rfl (by decide) (hL.finds_mark rfl _)

/-- A label is scanned as what it means, if no longer one is found. -/
theorem Lexicon.Standard.scans_label (hL : L.Standard)
    (hfound : label? L.dictionary.labels (label.toList ++ rest) = some label)
    (hresolve : L.dictionary.resolve label previous = some t)
    (hmeet : (endsOperand previous && t.beginsOperand) = false) :
    Scans L previous label.toList [t] (some t) rest := by
  have hmem := (of_label? hfound).1
  obtain ⟨c, u, hletters, hblank, -⟩ := hL.reachable.first_letter hmem
  have hlength : label.length = u.length + 1 := by
    rw [← String.length_toList, hletters, List.length_cons]
  have hbegins : label.toList <+: c :: (u ++ rest) := by
    rw [← List.cons_append, ← hletters]
    exact List.prefix_append ..
  rw [hletters] at hfound ⊢
  have hfinds : ∀ before,
      L.Finds L.dictionary.labels before previous c (u ++ rest) t (u.length + 1) := by
    intro before
    rw [← hlength]
    exact .label (hL.literal?_label hmem hbegins) hfound hresolve
  have hscans := Scans.token hblank hfinds
  rwa [hmeet] at hscans

end

/-! ### Parts of a text -/

/-- Where an operand is expected, and in front of a break, the characters `s` are scanned as
the lexemes `ls`. -/
structure Lexes (L : Lexicon V ω) (s : List Char) (ls : List (Lexeme V ω)) : Prop where
  begins : ∃ l ks, ls = l :: ks ∧ l.beginsOperand = true
  scans : ∀ (previous : Option (Lexeme V ω)) (rest : List Char), Stands false previous →
    Broken rest → ∃ next : Option (Lexeme V ω), Stands true next ∧ Scans L previous s ls next rest

namespace Lexes

variable {L : Lexicon V ω} {s u : List Char} {ls ks : List (Lexeme V ω)} {label : String}

/-- A blank in front is passed over. -/
theorem indent (h : Lexes L s ls) : Lexes L (' ' :: s) ls where
  begins := h.begins
  scans previous rest hprev hrest := by
    obtain ⟨next, hnext, hscans⟩ := h.scans previous rest hprev hrest
    exact ⟨next, hnext, Scans.blank.append hscans⟩

/-- Something between parentheses. -/
theorem group (hL : L.Standard) (h : Lexes L s ls) :
    Lexes L ('(' :: (s ++ [')'])) (.leftParenthesis :: (ls ++ [.rightParenthesis])) where
  begins := ⟨_, _, rfl, rfl⟩
  scans previous rest hprev _ := by
    obtain ⟨next, -, hscans⟩ := h.scans (some .leftParenthesis) (')' :: rest)
      stands_leftParenthesis (broken_cons (by decide) rest)
    exact ⟨_, stands_rightParenthesis,
      (hL.scans_leftParenthesis hprev.ends).append (hscans.append hL.scans_rightParenthesis)⟩

/-- Something between parentheses, if it needs them. -/
theorem enclosed (hL : L.Standard) {s : String} (h : Lexes L s.toList ls) (b : Bool) :
    Lexes L (if b then Tree.parenthesised s else s).toList (Formula.enclosed b ls) := by
  cases b with
  | false => exact h
  | true =>
    have hgroup := h.group hL
    simpa [Tree.parenthesised, Formula.enclosed] using hgroup

/-- A name that no label begins. -/
theorem var (hL : L.Standard) (hname : isName label.toList = true)
    (hfree : ∀ l ∈ L.dictionary.labels, ¬ l.toList <+: label.toList) :
    Lexes L label.toList [.var label] where
  begins := ⟨_, _, rfl, rfl⟩
  scans _ _ hprev hrest := ⟨_, stands_var label,
    .name hL.patterns hname (hL.reachable.label?_free hfree hrest) hprev.ends
      hrest.not_continuesName⟩

/-- A natural number. -/
theorem number (D : Dictionary Scalar ω) (n : Nat) :
    Lexes (.integers D) (Nat.toDigits 10 n) [.operand (.integer n)] where
  begins := ⟨_, _, rfl, rfl⟩
  scans _ _ hprev hrest := ⟨_, stands_operand _, .number n hprev hrest.not_digit⟩

/-- An operator in front of its operand. -/
theorem before (hL : L.Standard) {op : Placed (Operator ω)}
    (hop : L.dictionary.operator? label .before = some op)
    (hfound : ∀ rest, label? L.dictionary.labels (label.toList ++ (s ++ rest)) = some label)
    (h : Lexes L s ls) : Lexes L (label.toList ++ s) (.operator op.item :: ls) where
  begins := ⟨_, _, rfl, hL.reachable.isPrefix_of_before hop⟩
  scans previous rest hprev hrest := by
    have hstands := stands_operator (V := V)
      (Operator.isPostfix_of_isPrefix (hL.reachable.isPrefix_of_before hop))
    obtain ⟨next, hnext, hscans⟩ := h.scans _ rest hstands hrest
    have hresolve := hL.reachable.resolve_operator false hop hprev.expects
    refine ⟨next, hnext, (hL.scans_label (hfound rest) hresolve ?_).append hscans⟩
    rw [hprev.ends, Bool.false_and]

/-- An operator between two operands, with a blank on both sides. -/
theorem between (hL : L.Standard) {op : Placed (Operator ω)}
    (hop : L.dictionary.operator? label .after = some op) (hbinary : op.item.isBinary = true)
    (h : Lexes L s ls) (hu : Lexes L u ks) :
    Lexes L (s ++ ' ' :: (label.toList ++ ' ' :: u)) (ls ++ .operator op.item :: ks) where
  begins := by
    obtain ⟨l, js, rfl, hl⟩ := h.begins
    exact ⟨l, _, rfl, hl⟩
  scans previous rest hprev hrest := by
    obtain ⟨middle, hmiddle, hleft⟩ := h.scans previous
      (' ' :: (label.toList ++ ' ' :: u) ++ rest) hprev (broken_cons (by decide) _)
    have hstands := stands_operator (V := V) (Operator.isPostfix_of_isBinary hbinary)
    obtain ⟨next, hnext, hright⟩ := hu.indent.scans _ rest hstands hrest
    have hresolve := hL.reachable.resolve_operator true hop hmiddle.expects
    have hfound := hL.reachable.label?_self (Dictionary.mem_labels_of_operator? hop)
      (broken_cons (c := ' ') (by decide) (u ++ rest))
    have hbegins : (Lexeme.operator op.item : Lexeme V ω).beginsOperand = false :=
      Operator.isPrefix_of_isBinary hbinary
    have hlabel : Scans L middle label.toList [.operator op.item] (some (.operator op.item))
        (' ' :: u ++ rest) :=
      hL.scans_label hfound hresolve (by rw [hbegins, Bool.and_false])
    exact ⟨next, hnext, hleft.append (Scans.blank.append (hlabel.append hright))⟩

/-- A call. -/
theorem call {α : Type} {write : α → List Char} {spell : α → List (Lexeme V ω)} (hL : L.Standard)
    {f : Placed (Function ω)} (hf : L.dictionary.function? label = some f) {as : List α}
    (h : ∀ a ∈ as, Lexes L (write a) (spell a)) :
    Lexes L (label.toList ++ '(' :: ([',', ' '].intercalate (as.map write) ++ [')']))
      (.function f.item :: .leftParenthesis ::
        (listed (as.map spell) ++ [.rightParenthesis])) where
  begins := ⟨_, _, rfl, rfl⟩
  scans previous rest hprev _ := by
    have hclose : Stops (')' :: rest) := stops_cons (by simp)
    obtain ⟨next, harguments⟩ := scans_arguments (fun _ _ => hL.scans_separator)
      (fun a ha previous rest hprev hrest => by
        obtain ⟨next, -, hscans⟩ := (h a ha).scans previous rest hprev hrest.broken
        exact ⟨next, hscans⟩) hclose
    have hmem : label ∈ L.dictionary.labels := Dictionary.mem_labels.2 (.inr (.inr ⟨f, hf⟩))
    have hfound := hL.reachable.label?_self hmem (broken_cons (c := '(') (by decide)
      ([',', ' '].intercalate (as.map write) ++ [')'] ++ rest))
    have hname : Scans L previous label.toList [.function f.item] (some (.function f.item)) _ :=
      hL.scans_label hfound (L.dictionary.resolve_function hf previous)
        (by rw [hprev.ends, Bool.false_and])
    exact ⟨_, stands_rightParenthesis, hname.append ((hL.scans_leftParenthesis rfl).append
      (harguments.append hL.scans_rightParenthesis))⟩

end Lexes

end Formula
