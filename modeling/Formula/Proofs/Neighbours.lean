/-
Formula/Proofs/Neighbours.lean

What stands beside a token of a text.  Two choices of the lexer look at the token before: a
label with two operators means the one for its place, and between two operands a
multiplication is put in.  The second choice depends on the first, and what it puts in is the
token before for the next one.  `Fits` says of one token what is true of it and its
neighbours in the end, when all choices have been made.

A token is read after the token before it in the *text*, while `Fits` speaks of the one before
it in the *list*.  The two differ only behind an implied multiplication, and there a label with
two operators cannot stand: after an operand it does not begin another one
(`shape_of_beginsOperand`).

Main statement: `tokens_fit`.
-/
import Formula.Grammar
import Formula.Proofs.Coverage

namespace Formula

variable {V ω : Type}

/-! ### Places for operands -/

/-- Behind these tokens an operand is awaited: behind none at all, an opening parenthesis, a
separator, or an operator that stands before or between operands. -/
inductive Awaits : List (Token V ω) → Prop
  | first : Awaits []
  | leftParenthesis (us : List (Token V ω)) (p : Int) : Awaits (us ++ [⟨.leftParenthesis, p⟩])
  | separator (us : List (Token V ω)) (p : Int) : Awaits (us ++ [⟨.separator, p⟩])
  | operator {op : Operator ω} (us : List (Token V ω)) (p : Int) :
      op.isPrefix = true ∨ op.isBinary = true → Awaits (us ++ [⟨.operator op, p⟩])

/-- The lexeme that stands last, or the one before if there are no tokens. -/
def lastItem (previous : Option (Lexeme V ω)) (us : List (Token V ω)) : Option (Lexeme V ω) :=
  (us.getLast?.map (·.item)).or previous

@[simp] theorem lastItem_concat (previous : Option (Lexeme V ω)) (us : List (Token V ω))
    (t : Token V ω) : lastItem previous (us ++ [t]) = some t.item := by
  simp [lastItem]

theorem lastItem_cons (previous : Option (Lexeme V ω)) (t : Token V ω) (us : List (Token V ω)) :
    lastItem previous (t :: us) = lastItem (some t.item) us := by
  rw [lastItem, List.getLast?_cons, lastItem]
  cases us.getLast? <;> rfl

theorem lastItem_append (previous : Option (Lexeme V ω)) (us ts : List (Token V ω)) :
    lastItem previous (us ++ ts) = lastItem (lastItem previous us) ts := by
  rw [lastItem, List.getLast?_append, lastItem, lastItem]
  cases ts.getLast? <;> simp

theorem Operator.isPostfix_eq_false_iff {op : Operator ω} :
    op.isPostfix = false ↔ op.isPrefix = true ∨ op.isBinary = true := by
  cases h : op.fixity <;> simp [isPostfix, isPrefix, isBinary, h]

/-- The lexer expects an operand where one is awaited. -/
theorem awaits_iff {us : List (Token V ω)} :
    Awaits us ↔ expectsOperand (lastItem none us) = true := by
  constructor
  · intro h
    cases h with
    | first => rfl
    | leftParenthesis us p | separator us p =>
      rw [lastItem_concat]
      rfl
    | operator us p hop =>
      rw [lastItem_concat]
      exact expectsOperand_operator (Operator.isPostfix_eq_false_iff.2 hop)
  · intro h
    rcases List.eq_nil_or_concat us with rfl | ⟨us, ⟨l, p⟩, rfl⟩
    · exact .first
    rw [List.concat_eq_append] at h ⊢
    rw [lastItem_concat] at h
    cases l with
    | operator op => exact .operator us p (Operator.isPostfix_eq_false_iff.1
        (by simpa [expectsOperand, Lexeme.expectsOperand] using h))
    | punctuation m =>
      simp only [expectsOperand, Lexeme.expectsOperand, Bool.or_eq_true, beq_iff_eq] at h
      rcases h with rfl | rfl
      · exact .leftParenthesis us p
      · exact .separator us p
    | _ => cases h

theorem endsOperand_of_expectsOperand {previous : Option (Lexeme V ω)}
    (h : expectsOperand previous = true) : endsOperand previous = false := by
  rcases previous with _ | l
  · rfl
  · cases l with
    | operator op =>
      have hpostfix : (!op.isPostfix) = true := h
      simpa [endsOperand, Lexeme.endsOperand] using hpostfix
    | punctuation m =>
      simp only [expectsOperand, Lexeme.expectsOperand, Bool.or_eq_true, beq_iff_eq] at h
      rcases h with rfl | rfl <;> rfl
    | _ => cases h

/-! ### A token and its neighbours -/

/-- What is true of a token `t` between the lexeme `before` and the token `after`. -/
structure Fits (D : Dictionary V ω) (before : Option (Lexeme V ω)) (t : Token V ω)
    (after : Option (Token V ω)) : Prop where
  apart : (endsOperand before && t.item.beginsOperand) = false
  implied : t.item = .operator .juxtaposition → endsOperand before = true ∧
    ∃ u, after = some u ∧ u.item.beginsOperand = true ∧ t.position = u.position
  shape : ∀ op b a, t.item = .operator op → op ≠ .juxtaposition →
    D.operator? op.label .before = some b → D.operator? op.label .after = some a →
      op = if expectsOperand before then b.item else a.item

/-- Every token fits, the first one behind `previous`. -/
def AllFit (D : Dictionary V ω) : Option (Lexeme V ω) → List (Token V ω) → Prop
  | _, [] => True
  | previous, t :: ts => Fits D previous t ts.head? ∧ AllFit D (some t.item) ts

theorem AllFit.fits {D : Dictionary V ω} {previous : Option (Lexeme V ω)} {us : List (Token V ω)}
    {t : Token V ω} {vs : List (Token V ω)} (h : AllFit D previous (us ++ t :: vs)) :
    Fits D (lastItem previous us) t vs.head? := by
  induction us generalizing previous with
  | nil => exact h.1
  | cons u us ih =>
    rw [lastItem_cons]
    exact ih h.2

section

variable {D : Dictionary V ω} {label : String} {slot : Slot} {previous : Option (Lexeme V ω)}
  {op : Operator ω} {b a : Placed (Operator ω)}

/-- In the slot after an operand there is no operator that stands before one. -/
theorem Dictionary.Reachable.isPrefix_eq_false (hD : D.Reachable)
    (ha : D.operator? label .after = some a) : a.item.isPrefix = false := by
  obtain ⟨-, hslot, -⟩ := hD.operator ha
  cases h : a.item.isPrefix with
  | false => rfl
  | true => simp [Operator.slot, h] at hslot

theorem Dictionary.Reachable.isPrefix_of_before (hD : D.Reachable)
    (hb : D.operator? label .before = some b) : b.item.isPrefix = true := by
  obtain ⟨-, hslot, -⟩ := hD.operator hb
  cases h : b.item.isPrefix with
  | true => rfl
  | false => simp [Operator.slot, h] at hslot

/-- Of two operators a label means the one for its place. -/
theorem Dictionary.resolve_shape (h : D.resolve label previous = some (.operator op))
    (hb : D.operator? label .before = some b) (ha : D.operator? label .after = some a) :
    op = if expectsOperand previous then b.item else a.item := by
  have hfilled : D.operator? label (.expected previous) =
      some (if expectsOperand previous then b else a) := by
    rw [Slot.expected]
    split
    · exact hb
    · exact ha
  cases meaning_of_resolve h with
  | operator hop hslot =>
    rcases hslot with rfl | hempty
    · rw [hfilled] at hop
      rw [← Option.some.inj hop, apply_ite Placed.item]
    · rw [hfilled] at hempty
      cases hempty

namespace Lexicon

variable {L : Lexicon V ω} {c : Char} {before s : List Char} {l : Lexeme V ω} {n position : Nat}
  {ts : List (Token V ω)}

/-- An operator that is found is the one for its place. -/
theorem Finds.shape (hD : L.dictionary.Reachable)
    (h : L.Finds L.dictionary.labels before previous c s (.operator op) n)
    (hb : L.dictionary.operator? op.label .before = some b)
    (ha : L.dictionary.operator? op.label .after = some a) :
    op = if expectsOperand previous then b.item else a.item := by
  cases h with
  | label _ _ hresolve =>
    rcases hD.of_resolve hresolve with ⟨f, hf, -⟩ | ⟨o, ho, hlabel, -⟩
    · cases hf
    · obtain rfl := Lexeme.operator.inj ho
      rw [hlabel] at hb ha
      exact Dictionary.resolve_shape hresolve hb ha

/-- After an operand, no operator with two shapes begins another operand. -/
theorem Finds.shape_of_beginsOperand (hD : L.dictionary.Reachable)
    (h : L.Finds L.dictionary.labels before previous c s (.operator op) n)
    (hprev : endsOperand previous = true)
    (hbegins : (Lexeme.operator op : Lexeme V ω).beginsOperand = true)
    (hb : L.dictionary.operator? op.label .before = some b) :
    L.dictionary.operator? op.label .after = none := by
  cases ha : L.dictionary.operator? op.label .after with
  | none => rfl
  | some a =>
    have hshape := h.shape hD hb ha
    have hexpects : expectsOperand previous = false := by
      cases hexpects : expectsOperand previous with
      | false => rfl
      | true =>
        rw [endsOperand_of_expectsOperand hexpects] at hprev
        cases hprev
    rw [hexpects, if_neg Bool.false_ne_true] at hshape
    have hprefix : op.isPrefix = true := hbegins
    rw [hshape, hD.isPrefix_eq_false ha] at hprefix
    cases hprefix

/-- A word fits together with the multiplication that is implied in front of it. -/
theorem Finds.allFit (hD : L.dictionary.Reachable)
    (h : L.Finds L.dictionary.labels before previous c s l n)
    (hts : AllFit L.dictionary (some l) ts) :
    AllFit L.dictionary previous (implied previous l position ++ ⟨l, position⟩ :: ts) := by
  have hne := h.ne_juxtaposition hD
  rw [implied]
  split
  · next hmeet =>
    rw [Bool.and_eq_true] at hmeet
    refine ⟨⟨?_, ?_, ?_⟩, ⟨?_, ?_, ?_⟩, hts⟩
    · exact Bool.and_false _
    · exact fun _ => ⟨hmeet.1, _, rfl, hmeet.2, rfl⟩
    · intro op b a hop hother
      exact absurd (Lexeme.operator.inj hop).symm hother
    · rfl
    · exact fun hl => absurd hl hne
    · rintro op b a rfl _ hb ha
      rw [h.shape_of_beginsOperand hD hmeet.1 hmeet.2 hb] at ha
      cases ha
  · next hmeet =>
    refine ⟨⟨?_, ?_, ?_⟩, hts⟩
    · exact Bool.eq_false_iff.2 hmeet
    · exact fun hl => absurd hl hne
    · rintro op b a rfl _ hb ha
      exact h.shape hD hb ha

/-- All tokens of a text fit. -/
theorem allFit_tokens (hD : L.dictionary.Reachable) {text : String}
    (h : L.tokens text = .ok ts) : AllFit L.dictionary none ts :=
  words_induction (motive := fun previous _ _ ts => AllFit L.dictionary previous ts)
    hD.empty_not_mem_labels (fun _ _ => trivial) (fun _ h => h)
    (fun _ hfinds hts => hfinds.allFit hD hts) h

/-- **Every token of a text fits between its neighbours.**  No operand is directly followed by
another; an implied multiplication stands between two operands, at the position of the second
one; and an operator whose label has another one is the one before an operand exactly if an
operand is awaited behind the tokens before it. -/
theorem tokens_fit (hD : L.dictionary.Reachable) {text : String}
    (h : L.tokens text = .ok ts) :
    (∀ us t u vs, ts = us ++ t :: u :: vs →
      ¬ (t.item.endsOperand = true ∧ u.item.beginsOperand = true)) ∧
    (∀ us p vs, ts = us ++ ⟨.operator .juxtaposition, p⟩ :: vs →
      ∃ us' t u vs', us = us' ++ [t] ∧ vs = u :: vs' ∧
        t.item.endsOperand = true ∧ u.item.beginsOperand = true ∧ u.position = p) ∧
    ∀ us op p vs b a, ts = us ++ ⟨.operator op, p⟩ :: vs → op ≠ .juxtaposition →
      L.dictionary.operator? op.label .before = some b →
        L.dictionary.operator? op.label .after = some a →
          (op = b.item ↔ Awaits us) ∧ (op = a.item ↔ ¬ Awaits us) := by
  have hfit := allFit_tokens hD h
  refine ⟨?_, ?_, ?_⟩
  · rintro us t u vs rfl ⟨hends, hbegins⟩
    rw [List.append_cons] at hfit
    have hapart := hfit.fits.apart
    rw [lastItem_concat, hbegins, Bool.and_true] at hapart
    rw [endsOperand, hends] at hapart
    cases hapart
  · rintro us p vs rfl
    obtain ⟨hends, u, hu, hbegins, hposition⟩ := hfit.fits.implied rfl
    obtain ⟨vs', rfl⟩ := List.head?_eq_some_iff.1 hu
    rcases List.eq_nil_or_concat us with rfl | ⟨us', t, rfl⟩
    · cases hends
    rw [List.concat_eq_append] at hends ⊢
    rw [lastItem_concat] at hends
    exact ⟨us', t, u, vs', rfl, rfl, hends, hbegins, hposition.symm⟩
  · rintro us op p vs b a rfl hop hb ha
    have hshape := hfit.fits.shape op b a rfl hop hb ha
    -- the two operators of a label are not the same
    have hne : b.item ≠ a.item := by
      intro heq
      have hprefix := hD.isPrefix_of_before hb
      rw [heq, hD.isPrefix_eq_false ha] at hprefix
      cases hprefix
    rw [awaits_iff]
    cases hexpects : expectsOperand (lastItem none us) with
    | true =>
      rw [hexpects, if_pos rfl] at hshape
      simp [hshape, hne]
    | false =>
      rw [hexpects, if_neg Bool.false_ne_true] at hshape
      simp [hshape, hne.symm]

end Lexicon

end

/-! ### A label with two operators -/

/-- A negation; it stands before its operand and has the label of a factorial. -/
def negation : Operator String := ⟨"!", .prefixOp, 6, .none, .custom "not"⟩

/-- The integers with a factorial and a negation of one label. -/
def exclamations : Lexicon Int String where
  dictionary :=
    ⟨.ofList [("!", { before := some ⟨negation, -1⟩, after := some ⟨factorial 6, -1⟩ })],
      .empty, .empty⟩
  convert := Numeral.integer

theorem reachable_exclamations : exclamations.dictionary.Reachable := by
  have hnone : (factorials 6).dictionary.operatorObstacle negation = none :=
    Dictionary.operatorObstacle_eq_none.2 ⟨by decide, by decide, rfl, rfl, rfl⟩
  refine .register ⟨.operator negation, -1⟩ (reachable_factorials 6) ?_
  simp only [Dictionary.register, Dictionary.registerOperator, hnone]
  rfl

/-- The tokens of `!x! ! -y 2`. -/
def exclaimed : List (Token Int String) :=
  [⟨.operator negation, 0⟩, ⟨.var "x", 1⟩, ⟨.operator (factorial 6), 2⟩,
    ⟨.operator (factorial 6), 4⟩, ⟨.operator .subtraction, 6⟩, ⟨.var "y", 7⟩,
    ⟨.operator .juxtaposition, 9⟩, ⟨.operand 2, 9⟩]

theorem tokens_fit_exclaimed :
    exclamations.dictionary.Reachable ∧ exclamations.tokens "!x! ! -y 2" = .ok exclaimed ∧
      (∀ us t u vs, exclaimed = us ++ t :: u :: vs →
        ¬ (t.item.endsOperand = true ∧ u.item.beginsOperand = true)) ∧
      (∀ us p vs, exclaimed = us ++ ⟨.operator .juxtaposition, p⟩ :: vs →
        ∃ us' t u vs', us = us' ++ [t] ∧ vs = u :: vs' ∧
          t.item.endsOperand = true ∧ u.item.beginsOperand = true ∧ u.position = p) ∧
      ∀ us op p vs b a, exclaimed = us ++ ⟨.operator op, p⟩ :: vs → op ≠ .juxtaposition →
        exclamations.dictionary.operator? op.label .before = some b →
          exclamations.dictionary.operator? op.label .after = some a →
            (op = b.item ↔ Awaits us) ∧ (op = a.item ↔ ¬ Awaits us) := by
  have htokens : exclamations.tokens "!x! ! -y 2" = .ok exclaimed := by rfl
  exact ⟨reachable_exclamations, htokens, Lexicon.tokens_fit reachable_exclamations htokens⟩

end Formula
