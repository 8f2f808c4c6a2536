/-
Formula/Reader.lean

A reader turns texts into expressions.  It holds a lexicon (a dictionary, the
patterns of literals, and their conversion to operands) and the way back from
operands to texts.  Reading has three phases, and the first error ends it:

    text  ──tokens──▸  tokens  ──toPostfix──▸  postfix list  ──ofPostfix──▸  tree

`progress` is the account of these phases that a reader gives when it is asked to.
-/
import Formula.Expression
import Formula.Postfix
import Formula.Token.Lexer
import Formula.Tree.OfPostfix

namespace Formula

/-- What texts are read with, and how operands are written. -/
structure Reader (V ω : Type) extends Lexicon V ω where
  write : V → String

/-- Why a text is not an expression. -/
inductive ReadError (V ω : Type) where
  | lexical (e : LexicalError)
  | parse (e : ParseError)
  | tree (e : TreeError V ω)
  deriving DecidableEq, Repr

namespace Reader

variable {V ω : Type}

/-- How the expressions of a reader write their operands. -/
def spelling (R : Reader V ω) : Spelling V := ⟨R.write, R.patterns⟩

/-- The tree of a text. -/
def tree (R : Reader V ω) (text : String) : Except (ReadError V ω) (Tree V ω) :=
  match R.toLexicon.tokens text with
  | .error e => .error (.lexical e)
  | .ok ts =>
    match toPostfix ts with
    | .error e => .error (.parse e)
    | .ok ps => (Tree.ofPostfix ps).mapError .tree

/-- The expression over a tree. -/
def expression (R : Reader V ω) (root : Option (Tree V ω)) : Expression V ω :=
  ⟨R.dictionary.constants, R.spelling, root⟩

/-- Reads a text. -/
def read (R : Reader V ω) (text : String) : Except (ReadError V ω) (Expression V ω) :=
  (R.tree text).map fun t => R.expression (some t)

/-- The account of reading a text, one line a phase begun or ended, up to the phase
that fails. -/
def progress (R : Reader V ω) (text : String) : List String :=
  let lexing := line ("Phase 1: Lexical analysis of " ++ Text.quote text)
  match R.toLexicon.tokens text with
  | .error _ => [lexing]
  | .ok ts =>
    let lexed := [lexing, line ("  " ++ toString ts.length ++ " tokens produced"),
      line "Phase 2: Conversion to postfix"]
    match toPostfix ts with
    | .error _ => lexed
    | .ok ps =>
      let parsed := lexed ++ [line ("  " ++ toString ps.length ++ " postfix tokens"),
        line "Phase 3: Tree construction"]
      match Tree.ofPostfix ps with
      | .error _ => parsed
      | .ok _ => parsed ++ [line "  Build successful"]
where
  line (s : String) : String := "[exprtree] " ++ s

/-! ### Texts that are read -/

theorem tree_eq_ok {R : Reader V ω} {text : String} {t : Tree V ω} :
    R.tree text = .ok t ↔ ∃ ts ps, R.toLexicon.tokens text = .ok ts ∧ toPostfix ts = .ok ps ∧
      Tree.ofPostfix ps = .ok t := by
  constructor
  · intro h
    simp only [tree] at h
    split at h
    · cases h
    · next ts hts =>
      split at h
      · cases h
      · next ps hps =>
        cases hbuild : Tree.ofPostfix ps with
        | error e =>
          rw [hbuild] at h
          cases h
        | ok u =>
          rw [hbuild] at h
          obtain rfl : u = t := Except.ok.inj h
          exact ⟨ts, ps, hts, hps, hbuild⟩
  · rintro ⟨ts, ps, hts, hps, hbuild⟩
    simp only [tree, hts, hps, hbuild]
    rfl

theorem read_eq_ok {R : Reader V ω} {text : String} {e : Expression V ω} :
    R.read text = .ok e ↔ ∃ t, R.tree text = .ok t ∧ e = R.expression (some t) := by
  rw [read]
  cases R.tree text with
  | error err => exact ⟨nofun, nofun⟩
  | ok t =>
    constructor
    · intro h
      exact ⟨t, rfl, (Except.ok.inj h).symm⟩
    · rintro ⟨u, hu, rfl⟩
      rw [Except.ok.inj hu]
      rfl

/-! ### Texts that are refused -/

theorem read_eq_error {R : Reader V ω} {text : String} {e : ReadError V ω} :
    R.read text = .error e ↔
      (∃ e', R.toLexicon.tokens text = .error e' ∧ e = .lexical e') ∨
      (∃ ts e', R.toLexicon.tokens text = .ok ts ∧ toPostfix ts = .error e' ∧ e = .parse e') ∨
      ∃ ts ps e', R.toLexicon.tokens text = .ok ts ∧ toPostfix ts = .ok ps ∧
        Tree.ofPostfix ps = .error e' ∧ e = .tree e' := by
  rw [read]
  constructor
  · intro h
    cases htokens : R.toLexicon.tokens text with
    | error e' =>
      simp only [tree, htokens] at h
      exact .inl ⟨e', rfl, (Except.error.inj h).symm⟩
    | ok ts =>
      cases hparse : toPostfix ts with
      | error e' =>
        simp only [tree, htokens, hparse] at h
        exact .inr (.inl ⟨ts, e', rfl, hparse, (Except.error.inj h).symm⟩)
      | ok ps =>
        cases hbuild : Tree.ofPostfix ps with
        | error e' =>
          simp only [tree, htokens, hparse, hbuild] at h
          exact .inr (.inr ⟨ts, ps, e', rfl, hparse, hbuild, (Except.error.inj h).symm⟩)
        | ok t =>
          simp only [tree, htokens, hparse, hbuild] at h
          cases h
  · rintro (⟨e', htokens, rfl⟩ | ⟨ts, e', htokens, hparse, rfl⟩ |
      ⟨ts, ps, e', htokens, hparse, hbuild, rfl⟩)
    · simp only [tree, htokens]
      rfl
    · simp only [tree, htokens, hparse]
      rfl
    · simp only [tree, htokens, hparse, hbuild]
      rfl

end Reader

/-- The report of an error; `describe` writes operands. -/
def ReadError.fault {V ω : Type} (describe : V → String) : ReadError V ω → Fault
  | lexical e => e.fault
  | parse e => .engine e.diagnosis
  | tree e => .engine (e.diagnosis describe)

end Formula
