/-
Formula/Proofs/Acceptance.lean

The lexer, the yard and the builder of trees together accept the texts whose tokens
are a formula, and no others.  The lexer contributes that no two operands meet: where
they would, it puts in a multiplication (`apart_tokens`).  With this, `Balance` gives
one direction and `Shunting` the other.

Main statement: `accepts_iff_derives`.
-/
import Formula.Proofs.Balance
import Formula.Proofs.Shunting
import Formula.Number.Numeral

namespace Formula

variable {V ω : Type}

/-! ### The tokens of a text -/

namespace Lexicon

variable {L : Lexicon V ω} {labels : List String} {previous : Option (Lexeme V ω)}

/-- A structural character is a known mark. -/
theorem isKnown_of_isStructural {c : Char} (h : isStructural c = true) :
    (Lexeme.punctuation (String.singleton c) : Lexeme V ω).isKnown = true := by
  simp only [isStructural, Bool.or_eq_true, beq_iff_eq] at h
  obtain (rfl | rfl) | rfl := h <;> rfl

theorem isKnown_of_resolve {D : Dictionary V ω} {label : String} {l : Lexeme V ω}
    (h : D.resolve label previous = some l) : l.isKnown = true := by
  cases Dictionary.meaning_of_resolve h with
  | function _ | operator _ _ => rfl

/-- The lexer reads no unknown mark. -/
theorem isKnown_of_next {before s : List Char} {position : Nat} {c : Char} {l : Lexeme V ω}
    {length : Nat} (h : L.next labels before previous position c s = .ok (l, length)) :
    l.isKnown = true := by
  cases next_eq_ok.1 h with
  | operand _ _ | name _ _ _ => rfl
  | label _ _ hresolve => exact isKnown_of_resolve hresolve
  | mark _ _ _ hstructural => exact isKnown_of_isStructural hstructural

/-- With the multiplication that is put in, a token does not meet the one before. -/
theorem apart_implied {l : Lexeme V ω} {position : Nat} {ts : List (Token V ω)}
    (hl : l.isKnown = true) (hts : Apart (some l) ts) :
    Apart previous (implied previous l position ++ ⟨l, position⟩ :: ts) := by
  rw [implied]
  split
  · exact ⟨by simp [Lexeme.beginsOperand, Operator.isPrefix, Operator.juxtaposition], rfl,
      by simp [endsOperand, Lexeme.endsOperand, Operator.isPostfix, Operator.juxtaposition],
      hl, hts⟩
  · next h => exact ⟨by simpa using h, hl, hts⟩

/-- No two operands meet in the tokens of a text. -/
theorem apart_tokens {text : String} {ts : List (Token V ω)} (h : L.tokens text = .ok ts) :
    Apart none ts :=
  scan_induction (motive := Apart) (fun _ => trivial)
    (fun _ hnext hts => apart_implied (isKnown_of_next hnext) hts) h

end Lexicon

/-! ### Acceptance -/

/-- **The tokens of a text have a postfix list with a tree exactly if they are a
formula.** -/
theorem accepts_iff_derives {L : Lexicon V ω} {text : String} {ts : List (Token V ω)}
    (h : L.tokens text = .ok ts) :
    (∃ ps t, toPostfix ts = .ok ps ∧ Tree.ofPostfix ps = .ok t) ↔ Derives .formula ts := by
  constructor
  · rintro ⟨ps, t, hparse, hbuild⟩
    exact derives_of_ofPostfix (Lexicon.apart_tokens h) hparse hbuild
  · intro hderives
    obtain ⟨t, -, hparse, hbuild⟩ := toPostfix_of_derives hderives
    exact ⟨t.postorder, t, hparse, hbuild⟩

/-- The lexicon of the predefined operators, over the integers. -/
def plainIntegers : Lexicon Int String := { dictionary := .empty, convert := Numeral.integer }

/-- The tokens of `2(x+1)`. -/
def doubledSuccessor : List (Token Int String) :=
  [⟨.operand 2, 0⟩, ⟨.operator .juxtaposition, 1⟩, ⟨.leftParenthesis, 1⟩, ⟨.var "x", 2⟩,
    ⟨.operator .addition, 3⟩, ⟨.operand 1, 4⟩, ⟨.rightParenthesis, 5⟩]

theorem accepts_iff_derives_doubledSuccessor :
    plainIntegers.tokens "2(x+1)" = .ok doubledSuccessor ∧
      ((∃ ps t, toPostfix doubledSuccessor = .ok ps ∧ Tree.ofPostfix ps = .ok t) ↔
        Derives .formula doubledSuccessor) := by
  have h : plainIntegers.tokens "2(x+1)" = .ok doubledSuccessor := by rfl
  exact ⟨h, accepts_iff_derives h⟩

end Formula
