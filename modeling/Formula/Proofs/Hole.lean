/-
Formula/Proofs/Hole.lean

What a yard holds inside one pair of parentheses.  Between two tokens, each operator
that waits is the root of a tree that lacks its last operand: a `Hole`.  The operand
that has been read last fills the innermost hole, the tree that results fills the
next one, and so on; an operator that is taken off the stack fills exactly one.

So a yard is described by a list of holes, the innermost first, over the yard `y` that
was there when the parenthesis was opened: `y.await K` is waiting for an operand, and
`y.offer K x` has just read the operand `x`.  The three ways of taking operators off
the stack are then `popHoles` and `fillAll`.

The trees that come out are `Grown`: put together from tokens of the text as a formula
puts them together.  So they are saturated.
-/
import Formula.Climbing
import Formula.Proofs.Moves
import Formula.Proofs.Postorder

namespace Formula

variable {V ω : Type}

/-! ### Trees of formulas -/

/-- The tree is put together from tokens with the property `P`, with the operands that
they take. -/
inductive Tree.Grown (P : Token V ω → Prop) : Tree V ω → Prop
  | operand {v : V} {p : Int} : P ⟨.operand v, p⟩ → Grown P (.node ⟨.operand v, p⟩ [])
  | var {label : String} {p : Int} : P ⟨.var label, p⟩ → Grown P (.node ⟨.var label, p⟩ [])
  | call {f : Function ω} {p : Int} {xs : List (Tree V ω)} :
      P ⟨.function f, p⟩ → f.admits xs.length = true → (∀ x ∈ xs, Grown P x) →
      Grown P (callOf f p xs)
  | before {op : Operator ω} {p : Int} {x : Tree V ω} :
      P ⟨.operator op, p⟩ → op.isPrefix = true → Grown P x →
      Grown P (.node ⟨.operator op, p⟩ [x])
  | after {op : Operator ω} {p : Int} {x : Tree V ω} :
      P ⟨.operator op, p⟩ → op.isPostfix = true → Grown P x →
      Grown P (.node ⟨.operator op, p⟩ [x])
  | between {op : Operator ω} {p : Int} {x y : Tree V ω} :
      P ⟨.operator op, p⟩ → op.isBinary = true → Grown P x → Grown P y →
      Grown P (.node ⟨.operator op, p⟩ [x, y])

theorem Tree.Grown.saturated {P : Token V ω → Prop} {t : Tree V ω} (h : t.Grown P) :
    t.Saturated := by
  induction h with
  | operand _ | var _ => exact Tree.saturated_node.2 ⟨rfl, by simp⟩
  | call _ _ _ ih => exact Tree.saturated_node.2 ⟨rfl, ih⟩
  | @before op p x _ hop _ ih =>
    have : op.arity = 1 := Operator.arity_of_not_isBinary (Operator.isBinary_of_isPrefix hop)
    exact Tree.saturated_node.2 ⟨by simp [Lexeme.arity, this], by simp [ih]⟩
  | @after op p x _ hop _ ih =>
    have : op.arity = 1 := Operator.arity_of_not_isBinary (Operator.isBinary_of_isPostfix hop)
    exact Tree.saturated_node.2 ⟨by simp [Lexeme.arity, this], by simp [ih]⟩
  | @between op p x y _ hop _ _ ihx ihy =>
    have : op.arity = 2 := Operator.arity_of_isBinary hop
    exact Tree.saturated_node.2 ⟨by simp [Lexeme.arity, this], by simp [ihx, ihy]⟩

theorem Tree.Grown.mono {P Q : Token V ω → Prop} (hPQ : ∀ t, P t → Q t) {t : Tree V ω}
    (h : t.Grown P) : t.Grown Q := by
  induction h with
  | operand ht => exact .operand (hPQ _ ht)
  | var ht => exact .var (hPQ _ ht)
  | call ht hadmits _ ih => exact .call (hPQ _ ht) hadmits ih
  | before ht hop _ ih => exact .before (hPQ _ ht) hop ih
  | after ht hop _ ih => exact .after (hPQ _ ht) hop ih
  | between ht hop _ _ ihx ihy => exact .between (hPQ _ ht) hop ihx ihy

/-! ### Holes -/

/-- An operator with all its operands but the last. -/
inductive Hole (V ω : Type) where
  | before (op : Operator ω) (position : Int)
  | between (left : Tree V ω) (op : Operator ω) (position : Int)
  | after (op : Operator ω) (position : Int)

namespace Hole

/-- The operator of a hole. -/
def op : Hole V ω → Operator ω
  | before op _ | between _ op _ | after op _ => op

/-- The token of a hole. -/
def token : Hole V ω → Token V ω
  | before op p | between _ op p | after op p => ⟨.operator op, p⟩

/-- The tree of a hole with its last operand. -/
def fill (x : Tree V ω) : Hole V ω → Tree V ω
  | before op p | after op p => .node ⟨.operator op, p⟩ [x]
  | between left op p => .node ⟨.operator op, p⟩ [left, x]

/-- The output that belongs to a hole, last token first. -/
def output : Hole V ω → List (Token V ω)
  | between left _ _ => left.postorder.reverse
  | _ => []

/-- The operator takes the operands that it has, and one more; it and their tokens have
the property `P`. -/
def Grown (P : Token V ω → Prop) : Hole V ω → Prop
  | before op p => P ⟨.operator op, p⟩ ∧ op.isPrefix = true
  | between left op p => P ⟨.operator op, p⟩ ∧ op.isBinary = true ∧ left.Grown P
  | after op p => P ⟨.operator op, p⟩ ∧ op.isPostfix = true

theorem token_item (F : Hole V ω) : F.token.item = .operator F.op := by
  cases F <;> rfl

theorem postorder_fill (F : Hole V ω) (x : Tree V ω) :
    (F.fill x).postorder.reverse = F.token :: (x.postorder.reverse ++ F.output) := by
  cases F <;> simp [fill, token, output, Tree.postorder, Tree.postorders]

/-- A filled hole has in the output what the hole and its last operand had. -/
theorem output_fill (F : Hole V ω) (x : Tree V ω) (K : List (Hole V ω)) (out : List (Token V ω)) :
    F.token :: (x.postorder.reverse ++ ((F :: K).flatMap output ++ out)) =
      (F.fill x).postorder.reverse ++ (K.flatMap output ++ out) := by
  simp [F.postorder_fill x]

theorem Grown.fill {P : Token V ω → Prop} {F : Hole V ω} (h : F.Grown P) {x : Tree V ω}
    (hx : x.Grown P) : (F.fill x).Grown P := by
  cases F with
  | before op p => exact .before h.1 h.2 hx
  | between left op p => exact .between h.1 h.2.1 h.2.2 hx
  | after op p => exact .after h.1 h.2 hx

end Hole

/-! ### Filling holes -/

/-- Fills all holes, from the inside. -/
def fillAll (x : Tree V ω) : List (Hole V ω) → Tree V ω
  | [] => x
  | F :: K => fillAll (F.fill x) K

/-- Fills the holes whose operators go before `c`, up to the first that does not. -/
def popHoles (c : Operator ω) (x : Tree V ω) :
    List (Hole V ω) → Tree V ω × List (Hole V ω)
  | [] => (x, [])
  | F :: K => if Yard.popsBefore F.op c then popHoles c (F.fill x) K else (x, F :: K)

section

variable {P : Token V ω → Prop} {K : List (Hole V ω)} {x : Tree V ω}

theorem grown_fillAll (hK : ∀ F ∈ K, F.Grown P) (hx : x.Grown P) : (fillAll x K).Grown P := by
  induction K generalizing x with
  | nil => exact hx
  | cons F K ih =>
    have hF := (hK F (List.mem_cons_self ..)).fill hx
    exact ih (fun G hG => hK G (List.mem_cons_of_mem _ hG)) hF

theorem grown_popHoles {c : Operator ω} (hK : ∀ F ∈ K, F.Grown P) (hx : x.Grown P) :
    (popHoles c x K).1.Grown P ∧ ∀ F ∈ (popHoles c x K).2, F.Grown P := by
  induction K generalizing x with
  | nil => exact ⟨hx, hK⟩
  | cons F K ih =>
    rw [popHoles]
    split
    · have hF := (hK F (List.mem_cons_self ..)).fill hx
      exact ih (fun G hG => hK G (List.mem_cons_of_mem _ hG)) hF
    · exact ⟨hx, hK⟩

end

section

variable {c : Operator ω} {x : Tree V ω} {F : Hole V ω} {H K : List (Hole V ω)}

theorem fillAll_append (x : Tree V ω) (H K : List (Hole V ω)) :
    fillAll x (H ++ K) = fillAll (fillAll x H) K := by
  induction H generalizing x with
  | nil => rfl
  | cons F H ih => exact ih _

/-- The holes that an operator fills are filled in any case. -/
theorem fillAll_popHoles : fillAll (popHoles c x K).1 (popHoles c x K).2 = fillAll x K := by
  induction K generalizing x with
  | nil => rfl
  | cons F K ih =>
    rw [popHoles]
    split
    · exact ih
    · rfl

theorem popHoles_eq_self (h : Yard.popsBefore F.op c = false) :
    popHoles c x (F :: K) = (x, F :: K) := by
  rw [popHoles, h, if_neg Bool.false_ne_true]

/-- Holes that all go before `c` are filled first. -/
theorem popHoles_append (h : ∀ F ∈ H, Yard.popsBefore F.op c = true) :
    popHoles c x (H ++ K) = popHoles c (fillAll x H) K := by
  induction H generalizing x with
  | nil => rfl
  | cons F H ih =>
    obtain ⟨hF, hH⟩ := List.forall_mem_cons.1 h
    rw [List.cons_append, popHoles, if_pos hF, ih hH, fillAll]

/-- If all holes are filled, then they all go before `c`. -/
theorem forall_popsBefore_of_popHoles (h : (popHoles c x K).2 = []) :
    ∀ F ∈ K, Yard.popsBefore F.op c = true := by
  induction K generalizing x with
  | nil => simp
  | cons F K ih =>
    rw [popHoles] at h
    split at h
    · next hF => exact List.forall_mem_cons.2 ⟨hF, ih h⟩
    · cases h

theorem popHoles_suffix : (popHoles c x K).2 <:+ K := by
  induction K generalizing x with
  | nil => exact List.suffix_refl _
  | cons F K ih =>
    rw [popHoles]
    split
    · exact ih.trans (List.suffix_cons F K)
    · exact List.suffix_refl _

/-- The root of a tree that fills holes is the operator of one of them. -/
theorem lexeme_fillAll (h : K ≠ []) : ∃ F ∈ K, (fillAll x K).lexeme = .operator F.op := by
  induction K generalizing x with
  | nil => exact absurd rfl h
  | cons F K ih =>
    by_cases hK : K = []
    · subst hK
      exact ⟨F, List.mem_singleton_self F, by cases F <;> rfl⟩
    · obtain ⟨G, hG, hroot⟩ := ih (x := F.fill x) hK
      exact ⟨G, List.mem_cons_of_mem _ hG, hroot⟩

end

/-! ### Yards with holes -/

namespace Yard

/-- The yard `y` after operators that await operands. -/
def await (y : Yard V ω) (K : List (Hole V ω)) : Yard V ω :=
  ⟨K.flatMap Hole.output ++ y.output, K.map Hole.token ++ y.waiting, y.calls⟩

/-- The yard `y` after operators that await operands, and an operand. -/
def offer (y : Yard V ω) (K : List (Hole V ω)) (x : Tree V ω) : Yard V ω :=
  { y.await K with output := x.postorder.reverse ++ (y.await K).output }

/-- Nothing can be taken off the stack but a parenthesis. -/
def Fenced (waiting : List (Token V ω)) : Prop := ∀ t ∈ waiting.head?, t.item.isOpen = true

theorem fenced_nil : Fenced ([] : List (Token V ω)) := by
  intro t h
  cases h

theorem fenced_cons {t : Token V ω} (h : t.item.isOpen = true) (waiting : List (Token V ω)) :
    Fenced (t :: waiting) := by
  intro u hu
  rw [← Option.some.inj hu]
  exact h

/-- Nothing goes before an operator from behind a fence. -/
theorem popOperators_fenced {waiting : List (Token V ω)} (h : Fenced waiting)
    (c : Operator ω) (output : List (Token V ω)) :
    popOperators c output waiting = (output, waiting) := by
  cases waiting with
  | nil => rfl
  | cons t waiting =>
    obtain ⟨l, p⟩ := t
    have hopen := h ⟨l, p⟩ rfl
    cases l with
    | punctuation m => rfl
    | _ => cases hopen

/-- Taking operators off the stack fills holes. -/
theorem popOperators_offer {y : Yard V ω} (h : Fenced y.waiting) (c : Operator ω)
    (K : List (Hole V ω)) (x : Tree V ω) :
    popOperators c (y.offer K x).output (y.offer K x).waiting =
      ((y.offer (popHoles c x K).2 (popHoles c x K).1).output,
        (y.offer (popHoles c x K).2 (popHoles c x K).1).waiting) := by
  induction K generalizing x with
  | nil => exact popOperators_fenced h c _
  | cons F K ih =>
    simp only [offer, await, List.map_cons, List.cons_append, popOperators, F.token_item,
      popHoles]
    split
    · rw [F.output_fill]
      exact ih (F.fill x)
    · rfl

/-- At a closing parenthesis or a separator all holes are filled. -/
theorem popToOpen_offer {y : Yard V ω} {t : Token V ω} {waiting : List (Token V ω)}
    (hy : y.waiting = t :: waiting) (ht : t.item.isOpen = true)
    (K : List (Hole V ω)) (x : Tree V ω) :
    popToOpen (y.offer K x).output (y.offer K x).waiting =
      some ((fillAll x K).postorder.reverse ++ y.output, t, waiting) := by
  induction K generalizing x with
  | nil =>
    simp [offer, await, hy, popToOpen, ht, fillAll]
  | cons F K ih =>
    have hF : F.token.item.isOpen = false := by
      rw [F.token_item]
      rfl
    simp only [offer, await, List.map_cons, List.cons_append, popToOpen, hF,
      Bool.false_eq_true, if_false, fillAll]
    rw [F.output_fill]
    exact ih (F.fill x)

/-- At the end all holes are filled. -/
theorem flush_offer (K : List (Hole V ω)) (x : Tree V ω) :
    flush ((({} : Yard V ω).offer K x).output) ((({} : Yard V ω).offer K x).waiting) =
      .ok (fillAll x K).postorder.reverse := by
  induction K generalizing x with
  | nil => simp [offer, await, flush, fillAll]
  | cons F K ih =>
    have hF : F.token.item.isPunctuation = false := by
      rw [F.token_item]
      rfl
    simp only [offer, await, List.map_cons, List.cons_append, flush, hF,
      Bool.false_eq_true, if_false, fillAll]
    rw [F.output_fill]
    exact ih (F.fill x)

/-! ### Moves -/

section

variable {y : Yard V ω} {previous next : Option (Lexeme V ω)} {p : Int} {t : Token V ω}
  {waiting : List (Token V ω)} {calls : List (Option Nat)} {k : Nat} {K : List (Hole V ω)}
  {x : Tree V ω}

/-- An operator that stands after an operand waits when the holes that it fills are filled. -/
theorem moves_operator {op : Operator ω} (h : op.isPrefix = false) (hy : Fenced y.waiting) :
    (y.offer K x).Moves previous next ⟨.operator op, p⟩
      { y.offer (popHoles op x K).2 (popHoles op x K).1 with
        waiting := ⟨.operator op, p⟩ ::
          (y.offer (popHoles op x K).2 (popHoles op x K).1).waiting } := by
  have hmoves : (y.offer K x).Moves previous next ⟨.operator op, p⟩ _ := .operator p h
  rw [popOperators_offer hy] at hmoves
  exact hmoves

/-- The closing parenthesis of a group fills its holes. -/
theorem moves_closeGroup (hy : y.waiting = t :: waiting) (hcalls : y.calls = none :: calls)
    (ht : t.item.isOpen = true) :
    (y.offer K x).Moves previous next ⟨.rightParenthesis, p⟩
      ⟨(fillAll x K).postorder.reverse ++ y.output, waiting, calls⟩ :=
  .closeGroup p rfl (popToOpen_offer hy ht K x) hcalls

/-- The closing parenthesis of a call without arguments. -/
theorem moves_closeEmptyCall {f : Function ω} {q : Int}
    (hy : y.waiting = t :: ⟨.function f, q⟩ :: waiting) (hcalls : y.calls = some k :: calls)
    (ht : t.item.isOpen = true) (hprev : afterOpen previous = true) (hf : f.admits k = true) :
    y.Moves previous next ⟨.rightParenthesis, p⟩
      ⟨⟨.function { f with arguments := some k }, q⟩ :: y.output, waiting, calls⟩ := by
  have hpop : popToOpen y.output y.waiting = some (y.output, t, ⟨.function f, q⟩ :: waiting) := by
    rw [hy, popToOpen, if_pos ht]
  exact .closeCall p rfl hpop hcalls (by rw [hprev, Bool.not_true, Bool.false_and]) hf

/-- The closing parenthesis of a call with arguments fills the holes of the last one. -/
theorem moves_closeCall {f : Function ω} {q : Int}
    (hy : y.waiting = t :: ⟨.function f, q⟩ :: waiting) (hcalls : y.calls = some k :: calls)
    (ht : t.item.isOpen = true) (hprev : argumentMissing previous = false)
    (hf : f.admits k = true) :
    (y.offer K x).Moves previous next ⟨.rightParenthesis, p⟩
      ⟨⟨.function { f with arguments := some k }, q⟩ ::
        ((fillAll x K).postorder.reverse ++ y.output), waiting, calls⟩ :=
  .closeCall p rfl (popToOpen_offer hy ht K x) hcalls (by rw [hprev, Bool.and_false]) hf

/-- A separator fills the holes of the argument before it. -/
theorem moves_separate (hy : y.waiting = t :: waiting) (hcalls : y.calls = some k :: calls)
    (ht : t.item.isOpen = true) (hprev : argumentMissing previous = false) :
    (y.offer K x).Moves previous next ⟨.separator, p⟩
      ⟨(fillAll x K).postorder.reverse ++ y.output, y.waiting, some (k + 1) :: calls⟩ := by
  rw [hy]
  exact .separate p (by decide) (by decide) (popToOpen_offer hy ht K x) hcalls hprev

end

end Yard

end Formula
