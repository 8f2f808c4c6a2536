/-
Formula/Proofs/Printing.lean

The tokens of a printed tree.  `Printable` trees are those that can be written down:
natural numbers, names, calls of registered functions, and the predefined operators.
`lexemes` lists what such a tree is made of when it is printed, and the main statement,
`tokens_text`, is that the lexer finds just these lexemes in its text.

Between factors that are multiplied with nothing but a blank, the lexer puts the
multiplication in again, unless the second factor begins with a sign.  Then it takes the
sign for the operator between the two (`joined`).  The printer avoids this where the second
factor is a sign itself, and not where it is a product that begins with one.

Main statement: `tokens_text`.
-/
import Formula.Proofs.Reading
import Formula.Proofs.Rendering
import Formula.Proofs.Words

namespace Formula

variable {V ω : Type}

/-! ### Texts of parts -/

/-- The characters `s` are scanned as the lexemes `ls`, in front of something that ends
a word. -/
structure LexesAs (D : Dictionary Scalar ω) (s : List Char) (ls : List (Lexeme Scalar ω)) :
    Prop where
  nonempty : ls ≠ []
  scans : ∀ (after : Bool) (previous : Option (Lexeme Scalar ω)) (rest : List Char),
    Stands after previous → Stops rest →
      ∃ next : Option (Lexeme Scalar ω), Stands true next ∧
        Scans (.integers D) previous s (opening after ls) next rest

namespace LexesAs

variable {D : Dictionary Scalar ω} {s u : List Char} {ls ks : List (Lexeme Scalar ω)}

theorem number (n : Nat) : LexesAs D (Nat.toDigits 10 n) [.operand (.integer n)] where
  nonempty := by simp
  scans after previous rest hprev hrest := ⟨_, stands_operand _, .number n hprev hrest.not_digit⟩

theorem var (hD : D.Plain) {label : String} (hname : isName label.toList = true)
    (hfree : ∀ k f, D.function? k = some f → ¬ k.toList <+: label.toList) :
    LexesAs D label.toList [.var label] where
  nonempty := by simp
  scans after previous rest hprev hrest := ⟨_, stands_var label, .var hD hname hfree hprev hrest⟩

/-- Something between parentheses. -/
theorem group (hD : D.Plain) (h : LexesAs D s ls) :
    LexesAs D ('(' :: (s ++ [')'])) (.leftParenthesis :: (ls ++ [.rightParenthesis])) where
  nonempty := by simp
  scans after previous rest hprev _ := by
    obtain ⟨next, -, hscans⟩ := h.scans false (some .leftParenthesis) (')' :: rest)
      stands_leftParenthesis (stops_cons (by simp))
    refine ⟨_, stands_rightParenthesis, ?_⟩
    rw [opening_cons]
    exact (Scans.leftParenthesis hD hprev.ends).append (hscans.append (.rightParenthesis hD))

/-- A sign in front of an operand. -/
theorem sign (hD : D.Plain) {op : Operator ω} (hop : op ∈ Operator.signs) (h : LexesAs D s ls) :
    LexesAs D (op.label.toList ++ s) (.operator op :: ls) where
  nonempty := by simp
  scans after previous rest hprev hrest := by
    obtain ⟨t, ht, hsign⟩ := Scans.sign hD hop hprev
    obtain ⟨next, hnext, hscans⟩ := h.scans false (some t) rest ht hrest
    rw [opening_cons]
    exact ⟨next, hnext, hsign.append hscans⟩

/-- An operator between two operands, with a blank on both sides. -/
theorem between (hD : D.Plain) {op : Operator ω} (hop : op ∈ Operator.written)
    (h : LexesAs D s ls) (hu : LexesAs D u ks) :
    LexesAs D (s ++ ' ' :: (op.label.toList ++ ' ' :: u)) (ls ++ .operator op :: ks) where
  nonempty := by simp
  scans after previous rest hprev hrest := by
    obtain ⟨middle, hmiddle, hleft⟩ := h.scans after previous
      (' ' :: (op.label.toList ++ ' ' :: u) ++ rest) hprev (stops_cons (by simp))
    have hoperator := stands_operator (V := Scalar) (not_isPostfix_of_predefined (.inl hop))
    obtain ⟨next, hnext, hright⟩ := hu.scans false (some (.operator op)) rest hoperator hrest
    have hmark : Scans (.integers D) middle (op.label.toList ++ ' ' :: u)
        ([.operator op] ++ ([] ++ ks)) next rest :=
      (Scans.written hD hop hmiddle).append (Scans.blank.append hright)
    rw [opening_append h.nonempty]
    exact ⟨next, hnext, hleft.append (Scans.blank.append hmark)⟩

/-- Two operands with nothing but a blank between them. -/
theorem spaced (h : LexesAs D s ls) (hu : LexesAs D u ks) :
    LexesAs D (s ++ ' ' :: u) (ls ++ joined ks) where
  nonempty := by simp [h.nonempty]
  scans after previous rest hprev hrest := by
    obtain ⟨middle, hmiddle, hleft⟩ := h.scans after previous (' ' :: u ++ rest) hprev
      (stops_cons (by simp))
    obtain ⟨next, hnext, hright⟩ := hu.scans true middle rest hmiddle hrest
    rw [opening_append h.nonempty]
    exact ⟨next, hnext, hleft.append (Scans.blank.append hright)⟩

end LexesAs

/-! ### Lists of arguments -/

theorem intercalate_cons {α : Type} (sep s : List α) (ss : List (List α)) :
    sep.intercalate (s :: ss) = s ++ ss.flatMap (sep ++ ·) := by
  induction ss generalizing s with
  | nil => simp
  | cons t ss ih => rw [List.intercalate_cons_cons, ih, List.flatMap_cons, List.append_assoc,
      List.append_assoc]

section

variable {L : Lexicon V ω} {α : Type} {write : α → List Char} {spell : α → List (Lexeme V ω)}
  {as : List α} {rest : List Char}

theorem stops_flatMap (hrest : Stops rest) :
    Stops (as.flatMap (fun a => [',', ' '] ++ write a) ++ rest) := by
  cases as with
  | nil => exact hrest
  | cons a as => exact stops_cons (by simp)

section

variable (hseparator : ∀ (previous : Option (Lexeme V ω)) (rest : List Char),
    Scans L previous [','] [.separator] (some .separator) rest)
  (h : ∀ a ∈ as, ∀ (previous : Option (Lexeme V ω)) (rest : List Char), Stands false previous →
    Stops rest → ∃ next, Scans L previous (write a) (spell a) next rest)
include hseparator h

/-- Arguments after another argument. -/
theorem scans_further (previous : Option (Lexeme V ω)) (hrest : Stops rest) :
    ∃ next, Scans L previous (as.flatMap fun a => [',', ' '] ++ write a)
      (as.flatMap fun a => .separator :: spell a) next rest := by
  induction as generalizing previous with
  | nil => exact ⟨previous, .nil⟩
  | cons a as ih =>
    obtain ⟨middle, hargument⟩ := h a (List.mem_cons_self ..) (some .separator) _
      stands_separator (stops_flatMap hrest)
    obtain ⟨next, hfurther⟩ := ih (fun b hb => h b (List.mem_cons_of_mem _ hb)) middle
    exact ⟨next, (hseparator _ _).append (Scans.blank.append (hargument.append hfurther))⟩

/-- Arguments with separators between them. -/
theorem scans_arguments (hrest : Stops rest) :
    ∃ next, Scans L (some .leftParenthesis) ([',', ' '].intercalate (as.map write))
      (listed (as.map spell)) next rest := by
  cases as with
  | nil => exact ⟨_, .nil⟩
  | cons a as =>
    obtain ⟨middle, hargument⟩ := h a (List.mem_cons_self ..) (some .leftParenthesis) _
      stands_leftParenthesis (stops_flatMap hrest)
    obtain ⟨next, hfurther⟩ :=
      scans_further hseparator (fun b hb => h b (List.mem_cons_of_mem _ hb)) middle hrest
    refine ⟨next, ?_⟩
    rw [List.map_cons, intercalate_cons, List.flatMap_map, List.map_cons, listed, List.flatMap_map]
    exact hargument.append hfurther

end

end

section

variable {D : Dictionary Scalar ω}

/-- A call of a registered function. -/
theorem LexesAs.call {α : Type} {write : α → List Char} {spell : α → List (Lexeme Scalar ω)}
    (hD : D.Plain) {label : String} {f : Placed (Function ω)}
    (hf : D.function? label = some f) {xs : List α}
    (h : ∀ x ∈ xs, LexesAs D (write x) (spell x)) :
    LexesAs D (label.toList ++ '(' :: ([',', ' '].intercalate (xs.map write) ++ [')']))
      (.function f.item :: .leftParenthesis :: (listed (xs.map spell) ++ [.rightParenthesis])) where
  nonempty := by simp
  scans after previous rest hprev _ := by
    -- the parenthesis ends the label, which would go on otherwise
    have hstop : ∀ c ∈ ('(' :: ([',', ' '].intercalate (xs.map write) ++ [')']) ++ rest).head?,
        continuesName c = false := by
      rintro c ⟨⟩
      decide
    have hname := Scans.function hD hf hprev hstop
    have hclose : Stops (')' :: rest) := stops_cons (by simp)
    obtain ⟨next, harguments⟩ := scans_arguments (L := .integers D) (fun _ _ => .separator hD)
      (fun x hx previous rest hprev hrest => by
        obtain ⟨next, -, hscans⟩ := (h x hx).scans false previous rest hprev hrest
        exact ⟨next, hscans⟩) hclose
    refine ⟨_, stands_rightParenthesis, ?_⟩
    rw [opening_cons]
    exact hname.append ((Scans.leftParenthesis hD rfl).append
      (harguments.append (.rightParenthesis hD)))

end

/-! ### Printable trees -/

/-- Trees that can be written down.  A name is no variable if the label of a function
begins it. -/
inductive Printable (D : Dictionary Scalar ω) : Tree Scalar ω → Prop
  | number (n : Nat) (p : Int) : Printable D (.node ⟨.operand (.integer n), p⟩ [])
  | var {label : String} (p : Int) : isName label.toList = true →
      (∀ k f, D.function? k = some f → ¬ k.toList <+: label.toList) →
      Printable D (.node ⟨.var label, p⟩ [])
  | call {f : Placed (Function ω)} {cs : List (Tree Scalar ω)} (p : Int) :
      D.function? f.item.label = some f → f.item.admits cs.length = true →
      (∀ c ∈ cs, Printable D c) → Printable D (callOf f.item p cs)
  | sign {op : Operator ω} {c : Tree Scalar ω} (p : Int) : op ∈ Operator.signs →
      Printable D c → Printable D (.node ⟨.operator op, p⟩ [c])
  | juxtaposed {l r : Tree Scalar ω} (p : Int) : Printable D l → Printable D r →
      Printable D (.node ⟨.operator .juxtaposition, p⟩ [l, r])
  | between {op : Operator ω} {l r : Tree Scalar ω} (p : Int) : op ∈ Operator.written →
      Printable D l → Printable D r → Printable D (.node ⟨.operator op, p⟩ [l, r])

/-- The function under the label of `f`, with its arguments uncounted. -/
def Dictionary.registered (D : Dictionary V ω) (f : Function ω) : Function ω :=
  ((D.function? f.label).map Placed.item).getD f

/-- Lexemes between parentheses, if they need them. -/
def enclosed (parentheses : Bool) (ls : List (Lexeme V ω)) : List (Lexeme V ω) :=
  if parentheses then .leftParenthesis :: (ls ++ [.rightParenthesis]) else ls

theorem LexesAs.enclosed {D : Dictionary Scalar ω} (hD : D.Plain) {s : String}
    {ls : List (Lexeme Scalar ω)} (h : LexesAs D s.toList ls) (b : Bool) :
    LexesAs D (if b then Tree.parenthesised s else s).toList (Formula.enclosed b ls) := by
  cases b with
  | false => exact h
  | true =>
    have hgroup := h.group hD
    simpa [Tree.parenthesised, Formula.enclosed] using hgroup

variable [DecidableEq ω]

namespace Tree

/-- Is this a multiplication that is written with a blank? -/
def isSpaced (t : Tree Scalar ω) : Bool :=
  t.lexeme.isJuxtaposition && impliedLabel t.children == " "

theorem impliedLabel_eq (cs : List (Tree Scalar ω)) :
    impliedLabel cs = " " ∨ impliedLabel cs = " * " := by
  rw [impliedLabel.eq_def]
  split
  · split
    · exact .inr rfl
    · split
      · exact .inr rfl
      · split
        · exact .inr rfl
        · exact .inl rfl
  · exact .inl rfl

theorem isSpaced_of_not_isJuxtaposition {t : Tree Scalar ω}
    (h : t.lexeme.isJuxtaposition = false) : t.isSpaced = false := by
  rw [isSpaced, h, Bool.false_and]

theorem isSpaced_juxtaposition (p : Int) (cs : List (Tree Scalar ω)) :
    (node ⟨.operator .juxtaposition, p⟩ cs).isSpaced = (impliedLabel cs == " ") := by
  simp [isSpaced, lexeme, token, children, Lexeme.isJuxtaposition, Operator.isJuxtaposition]

/-- Is the operand of a sign put in parentheses? -/
def needsParenthesesAfterSign (t : Tree Scalar ω) : Bool :=
  match t.lexeme with
  | .operator inner => !inner.isPrefix
  | _ => false

/-- The operator that is written for `op`. -/
def writtenFor (op : Operator ω) : Operator ω := if op.isJuxtaposition then .multiplication else op

/-- The lexemes of a node from those of its children. -/
def nodeLexemes (D : Dictionary Scalar ω) (t : Lexeme Scalar ω) (children : List (Tree Scalar ω))
    (parts : List (List (Lexeme Scalar ω))) : List (Lexeme Scalar ω) :=
  match t with
  | .function f =>
    .function (D.registered f) :: .leftParenthesis :: (listed parts ++ [.rightParenthesis])
  | .operator op =>
    match children, parts with
    | [l, r], [ls, rs] =>
      let left := enclosed (needsParentheses op l) ls
      let right := enclosed (needsParentheses op r) rs
      if op.isJuxtaposition && impliedLabel children == " " then left ++ joined right
      else left ++ .operator (writtenFor op) :: right
    | [c], [ls] => .operator op :: enclosed c.needsParenthesesAfterSign ls
    | _, _ => []
  | t => [t]

mutual

/-- The lexemes of the text of a tree. -/
def lexemes (D : Dictionary Scalar ω) : Tree Scalar ω → List (Lexeme Scalar ω)
  | node t cs => nodeLexemes D t.item cs (lexemesAll D cs)

/-- The lexemes of the texts of several trees. -/
def lexemesAll (D : Dictionary Scalar ω) : List (Tree Scalar ω) → List (List (Lexeme Scalar ω))
  | [] => []
  | t :: ts => lexemes D t :: lexemesAll D ts

end

theorem lexemesAll_eq_map (D : Dictionary Scalar ω) (ts : List (Tree Scalar ω)) :
    lexemesAll D ts = ts.map (lexemes D) := by
  induction ts with
  | nil => rfl
  | cons t ts ih => rw [lexemesAll, List.map_cons, ih]

section

variable {D : Dictionary Scalar ω} {l r : Tree Scalar ω} {op : Operator ω} {p : Int}

theorem lexemes_callOf {f : Placed (Function ω)} (hf : D.function? f.item.label = some f)
    (p : Int) (cs : List (Tree Scalar ω)) :
    (callOf f.item p cs).lexemes D = .function f.item :: .leftParenthesis ::
      (listed (cs.map (lexemes D)) ++ [.rightParenthesis]) := by
  have hregistered : D.registered { f.item with arguments := some ↑cs.length } = f.item := by
    simp [Dictionary.registered, hf]
  rw [callOf, lexemes, lexemesAll_eq_map]
  simp only [nodeLexemes, hregistered]

theorem lexemes_sign (op : Operator ω) (p : Int) (c : Tree Scalar ω) :
    (node ⟨.operator op, p⟩ [c]).lexemes D =
      .operator op :: enclosed c.needsParenthesesAfterSign (c.lexemes D) := rfl

theorem lexemes_spaced (h : (node ⟨.operator op, p⟩ [l, r]).isSpaced = true) :
    (node ⟨.operator op, p⟩ [l, r]).lexemes D =
      enclosed (needsParentheses op l) (l.lexemes D) ++
        joined (enclosed (needsParentheses op r) (r.lexemes D)) := by
  have h' : (op.isJuxtaposition && impliedLabel [l, r] == " ") = true := h
  simp only [lexemes, lexemesAll, nodeLexemes, h', if_true]

theorem lexemes_between (h : (node ⟨.operator op, p⟩ [l, r]).isSpaced = false) :
    (node ⟨.operator op, p⟩ [l, r]).lexemes D =
      enclosed (needsParentheses op l) (l.lexemes D) ++ .operator (writtenFor op) ::
        enclosed (needsParentheses op r) (r.lexemes D) := by
  have h' : (op.isJuxtaposition && impliedLabel [l, r] == " ") = false := h
  simp only [lexemes, lexemesAll, nodeLexemes, h', Bool.false_eq_true, if_false]

end

theorem writtenFor_juxtaposition :
    writtenFor (.juxtaposition : Operator ω) = .multiplication := by
  simp [writtenFor, Operator.isJuxtaposition]

theorem writtenFor_of_not_isJuxtaposition {op : Operator ω} (h : op.isJuxtaposition = false) :
    writtenFor op = op := by
  rw [writtenFor, h, if_neg Bool.false_ne_true]

end Tree

/-! ### The lexemes of a text -/

/-- How the reader of integers writes operands. -/
def plainSpelling : Spelling Scalar := ⟨Scalar.text, Matcher.defaults⟩

section

variable {D : Dictionary Scalar ω}

theorem operandText_number (n : Nat) :
    (Tree.operandText plainSpelling (.integer n)).toList = Nat.toDigits 10 n := by
  have hwrite : plainSpelling.write (.integer n) = n.repr := rfl
  have hfits : Pattern.decimal.fits (Nat.toDigits 10 n) = true :=
    Pattern.fits_decimal Nat.toDigits_ne_nil Text.isDigit_toDigits
  rw [Tree.operandText, hwrite, if_pos, Nat.toList_repr]
  simp [plainSpelling, Matcher.defaults, Pattern.defaults, Pattern.matcher, hfits]

theorem isJuxtaposition_of_written {op : Operator ω} (h : op ∈ Operator.written) :
    op.isJuxtaposition = false := by
  simp only [Operator.written, List.mem_cons, List.not_mem_nil, or_false] at h
  rcases h with rfl | rfl | rfl | rfl | rfl | rfl <;>
    simp [Operator.isJuxtaposition, Operator.juxtaposition, Operator.addition,
      Operator.subtraction, Operator.multiplication, Operator.division, Operator.modulo,
      Operator.exponentiation]

theorem isJuxtaposition_of_isPrefix {op : Operator ω} (h : op.isPrefix = true) :
    op.isJuxtaposition = false := by
  rw [Operator.isJuxtaposition, beq_eq_false_iff_ne]
  rintro rfl
  cases h

/-- Induction over a printable tree, where it only matters which products are written with
a blank. -/
@[elab_as_elim]
theorem Printable.induction_spaced {motive : (t : Tree Scalar ω) → Printable D t → Prop}
    (plain : ∀ token cs, (Tree.node token cs).isSpaced = false →
      ∀ h : Printable D (.node token cs), (∀ c ∈ cs, ∃ hc : Printable D c, motive c hc) →
        motive (.node token cs) h)
    (spaced : ∀ p l r, (Tree.node ⟨.operator .juxtaposition, p⟩ [l, r]).isSpaced = true →
      ∀ (hl : Printable D l) (hr : Printable D r), motive l hl → motive r hr →
        motive (.node ⟨.operator .juxtaposition, p⟩ [l, r]) (.juxtaposed p hl hr))
    (t : Tree Scalar ω) (h : Printable D t) : motive t h := by
  induction h with
  | number n p => exact plain _ _ rfl _ (by simp)
  | var p hname hfree => exact plain _ _ rfl _ (by simp)
  | call p hf hadmits hcs ih => exact plain _ _ rfl _ fun c hc => ⟨hcs c hc, ih c hc⟩
  | sign p hop hc ih =>
    refine plain _ _ (Tree.isSpaced_of_not_isJuxtaposition ?_) _ ?_
    · exact isJuxtaposition_of_isPrefix (isPrefix_of_signs hop)
    · intro d hd
      obtain rfl := List.mem_singleton.1 hd
      exact ⟨hc, ih⟩
  | @between op l r p hop hl hr ihl ihr =>
    refine plain _ _ (Tree.isSpaced_of_not_isJuxtaposition ?_) _ ?_
    · exact isJuxtaposition_of_written hop
    · simp only [List.mem_cons, List.not_mem_nil, or_false, forall_eq_or_imp, forall_eq]
      exact ⟨⟨hl, ihl⟩, ⟨hr, ihr⟩⟩
  | @juxtaposed l r p hl hr ihl ihr =>
    cases hspaced : (Tree.node ⟨.operator .juxtaposition, p⟩ [l, r]).isSpaced with
    | true => exact spaced p l r hspaced hl hr ihl ihr
    | false =>
      refine plain _ _ hspaced _ ?_
      simp only [List.mem_cons, List.not_mem_nil, or_false, forall_eq_or_imp, forall_eq]
      exact ⟨⟨hl, ihl⟩, ⟨hr, ihr⟩⟩

theorem unaryText_sign {op : Operator ω} (h : op ∈ Operator.signs) (c : Tree Scalar ω)
    (s : String) :
    Tree.unaryText op c s =
      op.label ++ if c.needsParenthesesAfterSign then Tree.parenthesised s else s := by
  rw [Tree.unaryText, if_pos (Operator.isSign_iff.2 h), Tree.needsParenthesesAfterSign]
  cases c.lexeme with
  | operator inner => cases hinner : inner.isPrefix <;> simp [hinner]
  | _ => rfl

/-- The text of a printable tree is scanned as its lexemes. -/
theorem Printable.lexesAs (hD : D.Plain) {t : Tree Scalar ω} (h : Printable D t) :
    LexesAs D (t.text plainSpelling).toList (t.lexemes D) := by
  induction h with
  | number n p =>
    rw [Tree.text, Tree.nodeText, operandText_number]
    exact .number n
  | var p hname hfree => exact .var hD hname hfree
  | @call f cs p hf hadmits _ ih =>
    have hcall := LexesAs.call hD hf ih
    rw [Tree.lexemes_callOf hf, callOf, Tree.text, Tree.texts_eq_map]
    simp only [Tree.nodeText, Tree.parenthesised]
    simpa [String.toList_intercalate, Function.comp_def] using hcall
  | @sign op c p hop _ ih =>
    have hoperand := (ih.enclosed hD c.needsParenthesesAfterSign).sign hD hop
    have htext : Tree.text plainSpelling (.node ⟨.operator op, p⟩ [c]) =
        Tree.unaryText op c (Tree.text plainSpelling c) := rfl
    rw [htext, unaryText_sign hop, String.toList_append]
    exact hoperand
  | @juxtaposed l r p _ _ ihl ihr =>
    -- the printer leaves a blank for the operator, or else writes a multiplication
    have hl := ihl.enclosed hD (Tree.needsParentheses .juxtaposition l)
    have hr := ihr.enclosed hD (Tree.needsParentheses .juxtaposition r)
    rcases Tree.impliedLabel_eq [l, r] with hlabel | hlabel
    · have htext := hl.spaced hr
      rw [Tree.lexemes_spaced (by rw [Tree.isSpaced_juxtaposition, hlabel]; rfl)]
      simpa [Tree.text, Tree.texts, Tree.nodeText, Tree.wrapped, Tree.binaryLabel,
        Operator.isJuxtaposition, hlabel] using htext
    · have hwritten : (Operator.multiplication : Operator ω) ∈ Operator.written := by
        simp [Operator.written]
      have htext := hl.between hD hwritten hr
      rw [Tree.lexemes_between (by rw [Tree.isSpaced_juxtaposition, hlabel]; decide),
        Tree.writtenFor_juxtaposition]
      simpa [Tree.text, Tree.texts, Tree.nodeText, Tree.wrapped, Tree.binaryLabel,
        Operator.isJuxtaposition, Operator.multiplication, hlabel] using htext
  | @between op l r p hop _ _ ihl ihr =>
    have hjuxtaposition := isJuxtaposition_of_written hop
    have hl := ihl.enclosed hD (Tree.needsParentheses op l)
    have hr := ihr.enclosed hD (Tree.needsParentheses op r)
    have htext := hl.between hD hop hr
    rw [Tree.lexemes_between (Tree.isSpaced_of_not_isJuxtaposition hjuxtaposition),
      Tree.writtenFor_of_not_isJuxtaposition hjuxtaposition]
    simpa [Tree.text, Tree.texts, Tree.nodeText, Tree.wrapped, Tree.binaryLabel, hjuxtaposition]
      using htext

/-- **The tokens of a printed tree are its lexemes.** -/
theorem tokens_text (hD : D.Plain) {t : Tree Scalar ω} (h : Printable D t) :
    ∃ ts : List (Token Scalar ω), ts.map (·.item) = t.lexemes D ∧
      (Lexicon.integers D).tokens (t.text plainSpelling) = .ok ts := by
  obtain ⟨next, -, hscans⟩ := (h.lexesAs hD).scans false none [] stands_none stops_nil
  exact hscans.tokens

end

end Formula
