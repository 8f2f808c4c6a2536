/-
Formula/Proofs/Bindings.lean

What a value takes from the bindings.  In a total tree every node is complete and every
operation is greedy and never fails, so that a variable without a value is all that can stop
its evaluation.  `Lacks` says of a computation which variable that is, and it composes: the
values are computed from left to right, so a computation lacks the first variable that one of
its parts lacks (`Lacks.bind`), and a total tree lacks the leftmost of its variables that is
not bound (`Total.lacks`).

The values of the variables may as well stand in the tree.  Writing some of them into it and
binding the others gives the same value (`Total.eval_substitute`), as long as every variable
gets the value it had.

Main statement: `Expression.evaluate_of_total`.
-/
import Formula.Expression
import Formula.Proofs.StackMachine
import Formula.Proofs.Valuation

namespace Formula

variable {V ω ε σ α β : Type}

/-! ### Computations that lack a variable -/

namespace Evaluation

/-- The computation has a result, whatever the state. -/
def Succeeds (m : Evaluation ε σ α) : Prop := ∀ s, ∃ a s', m.run.run s = (.ok a, s')

/-- Whatever the state, the computation fails for want of the given variable, or has a result
if none is given. -/
def Lacks : Option String → Evaluation ε σ α → Prop
  | some label, m => ∀ s, ∃ s', m.run.run s = (.error (.undefined label), s')
  | none, m => Succeeds m

theorem lacks_pure (a : α) : Lacks none (pure a : Evaluation ε σ α) := fun s => ⟨a, s, rfl⟩

theorem lacks_throw (label : String) :
    Lacks (some label) (throw (.undefined label) : Evaluation ε σ α) := fun s => ⟨s, rfl⟩

/-- What comes first is lacking first. -/
theorem Lacks.bind {m : Evaluation ε σ α} {f : α → Evaluation ε σ β} {x y : Option String}
    (h : Lacks x m) (hf : ∀ s a s', m.run.run s = (.ok a, s') → Lacks y (f a)) :
    Lacks (x.or y) (m >>= f) := by
  cases x with
  | some label =>
    intro s
    obtain ⟨s', hs⟩ := h s
    exact ⟨s', by rw [bind_apply, hs]⟩
  | none =>
    rw [Option.none_or]
    cases y with
    | some label =>
      intro s
      obtain ⟨a, s₁, hs⟩ := h s
      obtain ⟨s', hs'⟩ := hf s a s₁ hs s₁
      exact ⟨s', by rw [bind_apply, hs]; exact hs'⟩
    | none =>
      intro s
      obtain ⟨a, s₁, hs⟩ := h s
      obtain ⟨b, s', hs'⟩ := hf s a s₁ hs s₁
      exact ⟨b, s', by rw [bind_apply, hs]; exact hs'⟩

/-- A computation has an error exactly if it lacks a variable. -/
theorem Lacks.exists_error_iff {m : Evaluation ε σ α} {x : Option String} (h : Lacks x m) (s : σ) :
    (∃ err s', m.run.run s = (.error err, s')) ↔ x.isSome = true := by
  cases x with
  | some label =>
    obtain ⟨s', hs⟩ := h s
    exact iff_of_true ⟨_, s', hs⟩ rfl
  | none =>
    obtain ⟨a, s', hs⟩ := h s
    refine iff_of_false ?_ Bool.false_ne_true
    rintro ⟨err, s₁, herr⟩
    rw [hs] at herr
    cases herr

end Evaluation

open Evaluation

/-- The first of the labels without a value. -/
def firstMissing (value? : String → Option V) (labels : List String) : Option String :=
  labels.find? fun l => (value? l).isNone

theorem firstMissing_append (value? : String → Option V) (labels labels' : List String) :
    firstMissing value? (labels ++ labels') =
      (firstMissing value? labels).or (firstMissing value? labels') := List.find?_append

theorem isSome_firstMissing {value? : String → Option V} {labels : List String} :
    (firstMissing value? labels).isSome = true ↔ ∃ label ∈ labels, value? label = none := by
  simp [firstMissing]

/-! ### The variables of a tree -/

/-- The label of a variable. -/
def Lexeme.name? : Lexeme V ω → Option String
  | var label => some label
  | _ => none

/-- The value of a variable in the place of the variable. -/
def Lexeme.filled (value? : String → Option V) : Lexeme V ω → Lexeme V ω
  | var label =>
    match value? label with
    | some v => operand v
    | none => var label
  | l => l

theorem Lexeme.name?_of_operation? {l : Lexeme V ω} {op : Operation ω}
    (h : l.operation? = some op) : l.name? = none := by
  cases l with
  | var label => cases h
  | _ => rfl

theorem Lexeme.filled_of_operation? {l : Lexeme V ω} {op : Operation ω}
    (h : l.operation? = some op) (value? : String → Option V) : l.filled value? = l := by
  cases l with
  | var label => cases h
  | _ => rfl

namespace Tree

/-- The labels of the variables, from left to right. -/
def vars (t : Tree V ω) : List String := t.postorder.filterMap (·.item.name?)

mutual

/-- The tree with the values of variables in their places. -/
def substitute (value? : String → Option V) : Tree V ω → Tree V ω
  | node t cs => node ⟨t.item.filled value?, t.position⟩ (substitutes value? cs)

/-- The trees with the values of variables in their places. -/
def substitutes (value? : String → Option V) : List (Tree V ω) → List (Tree V ω)
  | [] => []
  | t :: ts => substitute value? t :: substitutes value? ts

end

theorem substitutes_eq_map (value? : String → Option V) (ts : List (Tree V ω)) :
    substitutes value? ts = ts.map (substitute value?) := by
  induction ts with
  | nil => rfl
  | cons t ts ih => rw [substitutes, List.map_cons, ih]

theorem substitute_node (value? : String → Option V) (t : Token V ω) (cs : List (Tree V ω)) :
    (node t cs).substitute value? =
      node ⟨t.item.filled value?, t.position⟩ (cs.map (substitute value?)) := by
  rw [substitute, substitutes_eq_map]

theorem postorders_eq_flatMap (ts : List (Tree V ω)) : postorders ts = ts.flatMap postorder := by
  induction ts with
  | nil => rfl
  | cons t ts ih => rw [postorders, List.flatMap_cons, ih]

theorem vars_node (t : Token V ω) (cs : List (Tree V ω)) :
    (node t cs).vars = cs.flatMap vars ++ t.item.name?.toList := by
  have hroot : [t].filterMap (·.item.name?) = t.item.name?.toList := by
    cases h : t.item.name? <;> simp [h]
  rw [vars, postorder, List.filterMap_append, postorders_eq_flatMap, List.filterMap_flatMap,
    hroot]
  rfl

/-- Without values, nothing is changed. -/
theorem substitute_none (t : Tree V ω) : t.substitute (fun _ => none) = t := by
  induction t using Tree.induction with
  | step token cs ih =>
    have hcs : cs.map (substitute fun _ => none) = cs := by
      rw [List.map_congr_left ih, List.map_id']
    have hitem : token.item.filled (fun _ => none) = token.item := by
      cases token.item <;> rfl
    rw [substitute_node, hcs, hitem]

/-! ### Total trees -/

/-- Every node is complete, no node is a structural mark (the yard leaves them behind), and all
operations are greedy and never fail. -/
structure Total (I : Interpretation V ω ε σ) (t : Tree V ω) : Prop where
  complete : ∀ s ∈ t.preorder, s.isComplete = true
  unmarked : ∀ s ∈ t.preorder, s.lexeme.isPunctuation = false
  succeeds : ∀ s ∈ t.preorder, ∀ op, s.lexeme.operation? = some op →
    ∃ apply, I op = .greedy apply ∧ ∀ vs, vs.length = s.children.length → Succeeds (apply vs)

section

variable {I : Interpretation V ω ε σ} {token : Token V ω} {c : Tree V ω} {cs : List (Tree V ω)}
  {op : Operation ω} {bindings : Table V}

theorem Total.child (h : (node token cs).Total I) (hc : c ∈ cs) : c.Total I :=
  have hmem : ∀ {s}, s ∈ c.preorder → s ∈ (node token cs).preorder :=
    fun hs => mem_preorder_node.2 (.inr ⟨c, hc, hs⟩)
  ⟨fun s hs => h.complete s (hmem hs), fun s hs => h.unmarked s (hmem hs),
    fun s hs => h.succeeds s (hmem hs)⟩

theorem Total.greedy (h : (node token cs).Total I) (hop : token.item.operation? = some op) :
    ∃ apply, token.item.operation?.map I = some (.greedy apply) ∧
      ∀ vs, vs.length = cs.length → Succeeds (apply vs) := by
  obtain ⟨apply, hI, hsucceeds⟩ := h.succeeds _ (mem_preorder_node.2 (.inl rfl)) op hop
  exact ⟨apply, by rw [hop, Option.map_some, hI], hsucceeds⟩

/-- A node without an operation is an operand or a variable, and has no children. -/
theorem Total.leaf (h : (node token cs).Total I) (hop : token.item.operation? = none) :
    cs = [] ∧ ((∃ v, token.item = .operand v) ∨ ∃ label, token.item = .var label) := by
  have harity := Lexeme.arity_of_operation?_eq_none hop
  have hlength := arity_of_isComplete_of_nonneg (Int.le_of_eq harity.symm)
    (h.complete _ (mem_preorder_node.2 (.inl rfl)))
  have hcs : cs = [] := List.length_eq_zero_iff.1 (by omega)
  have hunmarked := h.unmarked _ (mem_preorder_node.2 (.inl rfl))
  obtain ⟨l, p⟩ := token
  cases l with
  | operand v => exact ⟨hcs, .inl ⟨v, rfl⟩⟩
  | var label => exact ⟨hcs, .inr ⟨label, rfl⟩⟩
  | operator o => cases hop
  | function f => cases hop
  | punctuation m => cases hunmarked

/-! ### What a total tree lacks -/

theorem lacks_evals
    (h : ∀ c ∈ cs, Lacks (firstMissing bindings.get? c.vars) (eval I c bindings)) :
    Lacks (firstMissing bindings.get? (cs.flatMap vars)) (evals I cs bindings) := by
  induction cs with
  | nil => exact lacks_pure []
  | cons c cs ih =>
    have hcs := ih fun d hd => h d (List.mem_cons_of_mem _ hd)
    rw [evals, List.flatMap_cons, firstMissing_append]
    refine (h c (List.mem_cons_self ..)).bind fun _ v _ _ => ?_
    rw [← Option.or_none (o := firstMissing bindings.get? (cs.flatMap vars))]
    exact hcs.bind fun _ vs _ _ => lacks_pure (v :: vs)

/-- A total tree lacks the leftmost of its variables that is not bound. -/
theorem Total.lacks {t : Tree V ω} (h : t.Total I) :
    Lacks (firstMissing bindings.get? t.vars) (eval I t bindings) := by
  induction t using Tree.induction with
  | step token cs ih =>
    rw [vars_node]
    cases hop : token.item.operation? with
    | none =>
      obtain ⟨rfl, ⟨v, hitem⟩ | ⟨label, hitem⟩⟩ := h.leaf hop
      · rw [eval_leaf hop, hitem]
        exact lacks_pure v
      · rw [eval_leaf hop, hitem]
        show Lacks (firstMissing bindings.get? [label]) (leafValue bindings (.var label))
        simp only [leafValue, Lexeme.label, firstMissing]
        cases hvalue : bindings.get? label with
        | some v =>
          rw [List.find?_cons_of_neg (by simp [hvalue])]
          exact lacks_pure v
        | none =>
          rw [List.find?_cons_of_pos (by simp [hvalue])]
          exact lacks_throw label
    | some op =>
      obtain ⟨apply, happly, hsucceeds⟩ := h.greedy hop
      have hcs := lacks_evals fun c hc => ih c hc (h.child hc)
      rw [Lexeme.name?_of_operation? hop, Option.toList_none, List.append_nil,
        eval_greedy happly, if_pos (h.complete _ (mem_preorder_node.2 (.inl rfl))),
        ← Option.or_none (o := firstMissing bindings.get? (cs.flatMap vars))]
      -- the operation comes after its operands, and lacks nothing of its own
      exact hcs.bind fun _ vs _ hvs => hsucceeds vs (length_of_evals hvs)

/-! ### Values in the places of variables -/

theorem evals_map_congr {f : Tree V ω → Tree V ω} {bindings' : Table V}
    (h : ∀ c ∈ cs, eval I (f c) bindings' = eval I c bindings) :
    evals I (cs.map f) bindings' = evals I cs bindings := by
  induction cs with
  | nil => rfl
  | cons c cs ih =>
    rw [List.map_cons, evals, evals, h c (List.mem_cons_self ..),
      ih fun d hd => h d (List.mem_cons_of_mem _ hd)]

/-- A total tree has the same value if every variable gets the same value, from the tree or
else from the bindings. -/
theorem Total.eval_substitute {t : Tree V ω} (h : t.Total I) {value? : String → Option V}
    {bindings' : Table V}
    (hvalue : ∀ label ∈ t.vars,
      (value? label).or (bindings'.get? label) = bindings.get? label) :
    eval I (t.substitute value?) bindings' = eval I t bindings := by
  induction t using Tree.induction with
  | step token cs ih =>
    rw [vars_node] at hvalue
    rw [substitute_node]
    cases hop : token.item.operation? with
    | none =>
      obtain ⟨rfl, ⟨v, hitem⟩ | ⟨label, hitem⟩⟩ := h.leaf hop
      · have hfilled : token.item.filled value? = token.item := by
          rw [hitem, Lexeme.filled.eq_def]
        rw [eval_leaf hop, eval_leaf (by rw [hfilled]; exact hop), hfilled, hitem]
        rfl
      · -- the value is written into the tree, or the variable is still there and is looked up
        have hlabel := hvalue label (by simp [hitem, Lexeme.name?])
        rw [eval_leaf hop, hitem]
        cases hv : value? label with
        | some v =>
          rw [hv, Option.some_or] at hlabel
          have hfilled : (.var label : Lexeme V ω).filled value? = .operand v := by
            rw [Lexeme.filled, hv]
          rw [eval_leaf (by rw [hfilled]; rfl), hfilled]
          simp only [leafValue, Lexeme.label, ← hlabel]
        | none =>
          rw [hv, Option.none_or] at hlabel
          have hfilled : (.var label : Lexeme V ω).filled value? = .var label := by
            rw [Lexeme.filled, hv]
          rw [eval_leaf (by rw [hfilled]; rfl), hfilled]
          simp only [leafValue, Lexeme.label, hlabel]
    | some op =>
      obtain ⟨apply, happly, -⟩ := h.greedy hop
      have hcs : evals I (cs.map (substitute value?)) bindings' = evals I cs bindings := by
        apply evals_map_congr
        intro c hc
        apply ih c hc (h.child hc)
        intro label hlabel
        exact hvalue label (List.mem_append_left _ (List.mem_flatMap.2 ⟨c, hc, hlabel⟩))
      have hroot := h.complete _ (mem_preorder_node.2 (.inl rfl))
      rw [Lexeme.filled_of_operation? hop, eval_greedy happly, eval_greedy happly, hcs,
        isComplete_congr rfl (List.length_map _), if_pos hroot, if_pos hroot]

/-- Only the values of its variables matter to a total tree. -/
theorem Total.eval_congr {t : Tree V ω} (h : t.Total I) {bindings' : Table V}
    (hvalue : ∀ label ∈ t.vars, bindings'.get? label = bindings.get? label) :
    eval I t bindings' = eval I t bindings := by
  have hnone : eval I (t.substitute fun _ => none) bindings' = eval I t bindings :=
    h.eval_substitute hvalue
  rwa [substitute_none] at hnone

end

end Tree

/-! ### Expressions -/

namespace Expression

/-- The value of a variable: the one that the caller gives it, or else the constant's. -/
def value? (e : Expression V ω) (given : Option (Table V)) (label : String) : Option V :=
  (given.bind (·.get? label)).or (e.constants.get? label)

theorem get?_bindings (e : Expression V ω) {given : Option (Table V)}
    (hgiven : ∀ u ∈ given, u.Single) : (e.bindings given).get? = e.value? given := by
  funext label
  cases given with
  | none => rfl
  | some u => exact Table.get?_override (hgiven u rfl) label

theorem evaluate_of_root {e : Expression V ω} {t : Tree V ω} (hroot : e.root = some t)
    (I : Interpretation V ω ε σ) (given : Option (Table V)) :
    e.evaluate I given = t.eval I (e.bindings given) := by
  rw [evaluate, hroot]
  exact t.evaluate_eq_eval (e.bindings given)

/-- **An unbound variable is all that can stop a total tree.**  Evaluation fails exactly if some
variable is bound neither by the caller nor as a constant, and the leftmost such variable is the
one that is reported.  Otherwise the value is that of the tree with the values of the variables
in their places, whatever the bindings; and callers that agree on the variables of the tree get
the same result. -/
theorem evaluate_of_total {I : Interpretation V ω ε σ} {e : Expression V ω} {t : Tree V ω}
    {given : Option (Table V)} (hroot : e.root = some t) (ht : t.Total I)
    (hgiven : ∀ u ∈ given, u.Single) :
    (∀ s, (∃ err s', (e.evaluate I given).run.run s = (.error err, s')) ↔
      ∃ label ∈ t.vars, e.value? given label = none) ∧
    (∀ label, firstMissing (e.value? given) t.vars = some label →
      ∀ s, ∃ s', (e.evaluate I given).run.run s = (.error (.undefined label), s')) ∧
    ((∀ label ∈ t.vars, (e.value? given label).isSome = true) → ∀ other,
      e.evaluate I given =
        { e with root := some (t.substitute (e.value? given)) }.evaluate I other) ∧
    (∀ given' : Option (Table V), (∀ u ∈ given', u.Single) →
      (∀ label ∈ t.vars, given'.bind (·.get? label) = given.bind (·.get? label)) →
        e.evaluate I given' = e.evaluate I given) := by
  have hlacks : Lacks (firstMissing (e.value? given) t.vars) (e.evaluate I given) := by
    rw [evaluate_of_root hroot, ← e.get?_bindings hgiven]
    exact ht.lacks
  refine ⟨?_, ?_, ?_, ?_⟩
  · intro s
    rw [hlacks.exists_error_iff s, isSome_firstMissing]
  · intro label hlabel
    rw [hlabel] at hlacks
    exact hlacks
  · intro hbound other
    rw [evaluate_of_root hroot, evaluate_of_root rfl]
    -- every variable has its value in the tree now, whatever the other bindings say
    refine (ht.eval_substitute fun label hlabel => ?_).symm
    rw [e.get?_bindings hgiven, Option.or_of_isSome (hbound label hlabel)]
  · intro given' hgiven' hagree
    rw [evaluate_of_root hroot, evaluate_of_root hroot]
    apply ht.eval_congr
    intro label hlabel
    rw [e.get?_bindings hgiven, e.get?_bindings hgiven', value?, value?, hagree label hlabel]

/-- The tree of `tick() - (z - y)`. -/
def tickMinus : Tree Int String :=
  .node ⟨.operator .subtraction, 7⟩
    [.node ⟨.function ⟨"tick", 0, .custom "tick", some 0⟩, 0⟩ [],
      .node ⟨.operator .subtraction, 12⟩ [.node ⟨.var "z", 10⟩ [], .node ⟨.var "y", 14⟩ []]]

/-- An expression for it with a constant `y`. -/
def tickMinusTwo : Expression Int String :=
  ⟨.ofList [("y", 2)], ⟨toString, Matcher.defaults⟩, some tickMinus⟩

theorem ticking_sub : ∃ apply, ticking (.builtin .sub) = .greedy apply ∧
    ∀ vs, vs.length = 2 → Succeeds (apply vs) := by
  refine ⟨_, rfl, ?_⟩
  intro vs hvs
  match vs, hvs with
  | [x, y], _ => exact lacks_pure (x - y)

theorem total_tickMinus : tickMinus.Total ticking where
  complete := by decide
  unmarked := by decide
  succeeds := by
    intro s hs op hop
    simp only [tickMinus, Tree.preorder, Tree.preorders, List.cons_append, List.nil_append,
      List.mem_cons, List.not_mem_nil, or_false] at hs
    rcases hs with rfl | rfl | rfl | rfl | rfl
    · obtain rfl := Option.some.inj hop
      exact ticking_sub
    · obtain rfl := Option.some.inj hop
      exact ⟨_, rfl, fun _ _ n => ⟨_, _, rfl⟩⟩
    · obtain rfl := Option.some.inj hop
      exact ticking_sub
    · cases hop
    · cases hop

/-- Without a caller's values, `z` is missing.  If the caller gives `z` and a `y` of its own, the
latter counts. -/
theorem evaluate_of_total_tickMinus :
    (∀ s, ∃ s', (tickMinusTwo.evaluate ticking none).run.run s = (.error (.undefined "z"), s')) ∧
    ∀ other, tickMinusTwo.evaluate ticking (some (.ofList [("z", 5), ("y", 1)])) =
      { tickMinusTwo with
        root := some (tickMinus.substitute
          (tickMinusTwo.value? (some (.ofList [("z", 5), ("y", 1)])))) }.evaluate
            ticking other := by
  have hgiven : ∀ u ∈ some (Table.ofList [("z", (5 : Int)), ("y", 1)]), u.Single := by
    rintro u ⟨⟩
    exact Table.single_ofList _
  refine ⟨?_, ?_⟩
  · exact (evaluate_of_total rfl total_tickMinus (by rintro u ⟨⟩)).2.1 "z" rfl
  · exact (evaluate_of_total rfl total_tickMinus hgiven).2.2.1 (by decide)

end Expression

end Formula
