/-
Formula/Proofs/Spelling.lean

The text of a tree, node by node.  `spellNode` says what one node adds to the texts of its
children, as its token asks for: a binary operator takes the texts of two operands, any other
operator that of one, a function those of all its arguments, however many, and a leaf none.  A
structural mark has no text, and neither has an operator with another number of operands.
`spell` is the recursion over it: every child is spelled once, the first one first, and the first
node without a text ends it.

The printer looks at the number of the children only and goes on in any case, with an explicit
stack of texts; whether there is a mark is asked before.  Where all operators have their operands
both come to the same, and the stack holds the one text at the end and nothing else.

Main statement: `text_eq_spell`.
-/
import Formula.Expression
import Formula.Proofs.Rendering

namespace Formula

variable {V ω : Type}

/-- The mark, if the lexeme is a structural mark. -/
def Lexeme.mark? : Lexeme V ω → Option String
  | punctuation mark => some mark
  | _ => none

/-- A result, unless there is a mark. -/
def barred {α : Type} (mark? : Option String) (a : α) : Except (EvaluationError Empty) α :=
  match mark? with
  | some mark => .error (.structural mark)
  | none => .ok a

/-- The first mark among the tokens. -/
def firstMark? (ts : List (Token V ω)) : Option String := ts.findSome? fun t => t.item.mark?

theorem firstMark?_append (ts us : List (Token V ω)) :
    firstMark? (ts ++ us) = (firstMark? ts).or (firstMark? us) :=
  List.findSome?_append

theorem firstMark?_eq_none {ts : List (Token V ω)} :
    firstMark? ts = none ↔ ∀ t ∈ ts, t.item.isPunctuation = false := by
  have hmark : ∀ l : Lexeme V ω, l.mark? = none ↔ l.isPunctuation = false := by
    intro l
    cases l <;> simp [Lexeme.mark?, Lexeme.isPunctuation]
  rw [firstMark?, List.findSome?_eq_none_iff]
  simp only [hmark]

namespace Tree

/-- All operators of the tree have their operands. -/
def Fitted (t : Tree V ω) : Prop :=
  ∀ s ∈ t.preorder, ∀ op, s.lexeme = .operator op → s.children.length = op.arity

theorem fitted_node {token : Token V ω} {cs : List (Tree V ω)} :
    (node token cs).Fitted ↔
      (∀ op, token.item = .operator op → cs.length = op.arity) ∧ ∀ c ∈ cs, c.Fitted :=
  forall_mem_preorder_node

variable [DecidableEq ω]

/-! ### Node by node -/

/-- The text of an operator between the texts of its operands, as many as it has by its own
account. -/
def spellOperator (op : Operator ω) :
    List (Tree V ω) → List String → Except (EvaluationError Empty) String
  | [l, r], [s, u] =>
    if op.isBinary then .ok (wrapped op l s ++ binaryLabel op [l, r] ++ wrapped op r u)
    else .error .stuck
  | [c], [s] => if op.isBinary then .error .stuck else .ok (unaryText op c s)
  | _, _ => .error .stuck

/-- The text of a node from its children and their texts, as its token says. -/
def spellNode (S : Spelling V) (t : Lexeme V ω) (children : List (Tree V ω))
    (texts : List String) : Except (EvaluationError Empty) String :=
  match t with
  | .operand v => .ok (operandText S v)
  | .var label => .ok label
  | .function f => .ok (f.label ++ parenthesised (", ".intercalate texts))
  | .operator op => spellOperator op children texts
  | .punctuation mark => .error (.structural mark)

mutual

/-- The text of a tree from those of its children. -/
def spell (S : Spelling V) : Tree V ω → Except (EvaluationError Empty) String
  | node t cs => spellAll S cs >>= spellNode S t.item cs

/-- The texts of several trees, from the first one on. -/
def spellAll (S : Spelling V) : List (Tree V ω) → Except (EvaluationError Empty) (List String)
  | [] => .ok []
  | t :: ts => do
    let s ← spell S t
    let ss ← spellAll S ts
    .ok (s :: ss)

end

section

variable {S : Spelling V}

/-- An operator with its operands has a text. -/
theorem spellOperator_eq {op : Operator ω} {cs : List (Tree V ω)} (h : cs.length = op.arity) :
    spellOperator op cs (texts S cs) = .ok (nodeText S (.operator op) cs (texts S cs)) := by
  cases hbinary : op.isBinary with
  | true =>
    rw [Operator.arity_of_isBinary hbinary] at h
    match cs, h with
    | [l, r], _ => exact if_pos hbinary
  | false =>
    rw [Operator.arity_of_not_isBinary hbinary] at h
    obtain ⟨c, rfl⟩ := List.length_eq_one_iff.1 h
    exact if_neg (by simp [hbinary])

/-- A node has a text unless its token is a mark. -/
theorem spellNode_eq {t : Lexeme V ω} {cs : List (Tree V ω)}
    (h : ∀ op, t = .operator op → cs.length = op.arity) :
    spellNode S t cs (texts S cs) = barred t.mark? (nodeText S t cs (texts S cs)) := by
  cases t with
  | operator op => exact spellOperator_eq (h op rfl)
  | _ => rfl

theorem spellAll_eq {cs : List (Tree V ω)}
    (h : ∀ c ∈ cs, c.spell S = barred (firstMark? c.postorder) (c.text S)) :
    spellAll S cs = barred (firstMark? (postorders cs)) (texts S cs) := by
  induction cs with
  | nil => rfl
  | cons c cs ih =>
    obtain ⟨hc, hcs⟩ := List.forall_mem_cons.1 h
    rw [spellAll, hc, ih hcs, postorders, firstMark?_append]
    cases firstMark? c.postorder with
    | some mark => rfl
    | none => cases firstMark? (postorders cs) <;> rfl

/-- Where operators have their operands, only a mark stands in the way of the text. -/
theorem Fitted.spell_eq {t : Tree V ω} (h : t.Fitted) :
    t.spell S = barred (firstMark? t.postorder) (t.text S) := by
  induction t using Tree.induction with
  | step token cs ih =>
    obtain ⟨hroot, hcs⟩ := fitted_node.1 h
    rw [spell, spellAll_eq fun c hc => ih c hc (hcs c hc), postorder, firstMark?_append]
    cases firstMark? (postorders cs) with
    | some mark => rfl
    | none =>
      show spellNode S token.item cs (texts S cs) = _
      rw [spellNode_eq hroot, text]
      obtain ⟨t, p⟩ := token
      cases t <;> rfl

end

end Tree

/-- The first mark bars the result. -/
theorem find?_isPunctuation_eq_barred {α : Type} (ts : List (Token V ω)) (a : α) :
    (match ts.find? fun token => token.item.isPunctuation with
      | some ⟨.punctuation mark, _⟩ => .error (.structural mark)
      | _ => .ok a) = barred (firstMark? ts) a := by
  induction ts with
  | nil => rfl
  | cons token ts ih =>
    obtain ⟨l, p⟩ := token
    cases l with
    | punctuation mark => rfl
    | _ => exact ih

variable [DecidableEq ω]

/-- The text of an expression is asked for marks before it is printed. -/
theorem Expression.text_eq_barred (constants : Table V) (S : Spelling V) (t : Tree V ω) :
    (⟨constants, S, some t⟩ : Expression V ω).text =
      barred (firstMark? t.postorder) (t.render S) :=
  find?_isPunctuation_eq_barred t.postorder (t.render S)

/-- **The printer spells a tree node by node.**  The text of an expression in which all operators
have their operands is the text by recursion, or there is none because of the same mark; there is
one if and only if no token is a mark.  The stack on which the printer computes it then never
lacks a text, and holds nothing else at the end. -/
theorem text_eq_spell (constants : Table V) (S : Spelling V) {t : Tree V ω} (h : t.Fitted) :
    (⟨constants, S, some t⟩ : Expression V ω).text = t.spell S ∧
      ((∃ s, t.spell S = .ok s) ↔ ∀ token ∈ t.postorder, token.item.isPunctuation = false) ∧
      ∀ s, t.spell S = .ok s →
        Tree.renderAll S [(t, false)] [] = some [s] ∧ t.render S = s := by
  rw [Expression.text_eq_barred, Tree.render_eq_text, ← firstMark?_eq_none, h.spell_eq]
  refine ⟨rfl, ?_, ?_⟩
  · cases firstMark? t.postorder with
    | some mark => simp [barred]
    | none => simp [barred]
  · intro s hs
    have htext : t.text S = s := by
      cases hmark : firstMark? t.postorder with
      | some mark =>
        rw [hmark] at hs
        cases hs
      | none =>
        rw [hmark] at hs
        exact Except.ok.inj hs
    rw [Tree.renderAll_fresh_cons, Tree.renderAll, htext]
    exact ⟨rfl, rfl⟩

/-- The tree of `-max() x`, with a call without arguments. -/
def negatedMaximum : Tree Int String :=
  .node ⟨.operator .juxtaposition, 7⟩
    [.node ⟨.operator .unaryMinus, 0⟩
      [.node ⟨.function ⟨"max", anyNumber, .custom "max", some 0⟩, 1⟩ []],
    .node ⟨.var "x", 7⟩ []]

theorem text_eq_spell_negatedMaximum :
    let S : Spelling Int := ⟨fun n => toString n, Matcher.defaults⟩
    negatedMaximum.Fitted ∧
      (⟨.empty, S, some negatedMaximum⟩ : Expression Int String).text = negatedMaximum.spell S ∧
      ∃ s, negatedMaximum.spell S = .ok s ∧
        Tree.renderAll S [(negatedMaximum, false)] [] = some [s] ∧ negatedMaximum.render S = s := by
  intro S
  have hfitted : negatedMaximum.Fitted := by
    simp [negatedMaximum, Tree.fitted_node, Operator.juxtaposition, Operator.unaryMinus,
      Operator.arity, Operator.isBinary]
  obtain ⟨htext, hmarks, hrender⟩ := text_eq_spell .empty S hfitted
  obtain ⟨s, hs⟩ := hmarks.2 (by decide)
  exact ⟨hfitted, htext, s, hs, hrender s hs⟩

end Formula
