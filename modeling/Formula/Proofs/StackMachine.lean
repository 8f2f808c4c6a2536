/-
Formula/Proofs/StackMachine.lean

A postfix list is a program for a stack of values.  It is read once, from the left: an
operand pushes its value, a variable pushes what it is bound to, and an operator or a
function takes as many values off the stack as it has operands, the last one from the top,
and pushes its result.

The tree of a postfix list has the value that the list computes in this way, with the same
failures and the same changes of the state in the same order.  Reading the postorder of a
tree in front of any other tokens, over any stack, evaluates the tree and pushes its value
(`execute_postorder`); so the two directions, from the end of the list to the tree and down
the tree again, cancel out.

Main statement: `evaluate_eq_run`.
-/
import Formula.Proofs.Evaluating
import Formula.Proofs.Postorder
import Formula.Token.Predefined

namespace Formula

variable {V ω ε σ : Type}

/-! ### The machine -/

/-- Replaces the last `n` values by the result of a greedy operation.  Lazy operations ask
for trees, which a stack of values does not have. -/
def applyToTop (I : Interpretation V ω ε σ) (op : Operation ω) (n : Nat) (stack : List V) :
    Evaluation ε σ (List V) :=
  match I op, Tree.take? n stack with
  | .greedy apply, some (operands, below) => do
    let v ← apply operands
    return v :: below
  | _, _ => throw .stuck

/-- What one token does to the stack, last value first. -/
def executeToken (I : Interpretation V ω ε σ) (bindings : Table V) (stack : List V) :
    Lexeme V ω → Evaluation ε σ (List V)
  | .operand v => pure (v :: stack)
  | .var label =>
    match bindings.get? label with
    | some v => pure (v :: stack)
    | none => throw (.undefined label)
  | .operator op => applyToTop I op.operation op.arity stack
  | .function f => applyToTop I f.operation f.arity.toNat stack
  | .punctuation mark => throw (.structural mark)

/-- What a list of tokens does to the stack. -/
def execute (I : Interpretation V ω ε σ) (bindings : Table V) :
    List (Token V ω) → List V → Evaluation ε σ (List V)
  | [], stack => pure stack
  | t :: ts, stack => do
    let stack ← executeToken I bindings stack t.item
    execute I bindings ts stack

/-- The value that a list of tokens computes, if it leaves exactly one. -/
def runPostfix (I : Interpretation V ω ε σ) (bindings : Table V) (ts : List (Token V ω)) :
    Evaluation ε σ V := do
  match ← execute I bindings ts [] with
  | [v] => pure v
  | _ => throw .stuck

/-! ### One token -/

theorem Lexeme.arity_of_operation?_eq_none {l : Lexeme V ω} (h : l.operation? = none) :
    l.arity = 0 := by
  cases l with
  | operator op => cases h
  | function f => cases h
  | _ => rfl

section

variable {I : Interpretation V ω ε σ} {bindings : Table V}

theorem executeToken_leaf {l : Lexeme V ω} (h : l.operation? = none) (stack : List V) :
    executeToken I bindings stack l =
      Tree.leafValue bindings l >>= fun v => pure (v :: stack) := by
  cases l with
  | operand v => exact (pure_bind v fun v => pure (v :: stack)).symm
  | var label =>
    simp only [executeToken, Tree.leafValue, Lexeme.label]
    cases bindings.get? label with
    | some v => exact (pure_bind v fun v => pure (v :: stack)).symm
    | none => rfl
  | punctuation mark => rfl
  | operator op => cases h
  | function f => cases h

/-- An operation finds its operands on the stack, and leaves what is below them. -/
theorem applyToTop_append {op : Operation ω} {apply : List V → Evaluation ε σ V}
    (h : I op = .greedy apply) (vs stack : List V) :
    applyToTop I op vs.length (vs.reverse ++ stack) =
      apply vs >>= fun v => pure (v :: stack) := by
  rw [applyToTop, h, Tree.take?_append]

theorem executeToken_greedy {l : Lexeme V ω} {op : Operation ω}
    {apply : List V → Evaluation ε σ V} (hop : l.operation? = some op)
    (happly : I op = .greedy apply) {vs : List V} (hvs : (vs.length : Int) = l.arity)
    (stack : List V) :
    executeToken I bindings (vs.reverse ++ stack) l =
      apply vs >>= fun v => pure (v :: stack) := by
  cases l with
  | operator o =>
    obtain rfl := Option.some.inj hop
    have harity : o.arity = vs.length := by
      rw [Lexeme.arity] at hvs
      omega
    rw [executeToken, harity]
    exact applyToTop_append happly vs stack
  | function f =>
    obtain rfl := Option.some.inj hop
    have harity : f.arity.toNat = vs.length := by
      rw [Lexeme.arity] at hvs
      omega
    rw [executeToken, harity]
    exact applyToTop_append happly vs stack
  | operand v => cases hop
  | var label => cases hop
  | punctuation mark => cases hop

/-! ### Whole trees -/

/-- All operations of the tokens are greedy. -/
def Greedy (I : Interpretation V ω ε σ) (ts : List (Token V ω)) : Prop :=
  ∀ t ∈ ts, ∀ op, t.item.operation? = some op → ∃ apply, I op = .greedy apply

/-- The postorders of several trees push their values, the first one first. -/
theorem execute_postorders {cs : List (Tree V ω)}
    (h : ∀ c ∈ cs, ∀ (rest : List (Token V ω)) (stack : List V),
      execute I bindings (c.postorder ++ rest) stack =
        c.eval I bindings >>= fun v => execute I bindings rest (v :: stack))
    (rest : List (Token V ω)) (stack : List V) :
    execute I bindings (Tree.postorders cs ++ rest) stack =
      Tree.evals I cs bindings >>= fun vs =>
        execute I bindings rest (vs.reverse ++ stack) := by
  induction cs generalizing stack with
  | nil => exact (pure_bind [] fun vs => execute I bindings rest (vs.reverse ++ stack)).symm
  | cons c cs ih =>
    have hcs := ih fun d hd => h d (List.mem_cons_of_mem _ hd)
    rw [Tree.postorders, List.append_assoc, h c (List.mem_cons_self ..), Tree.evals, bind_assoc]
    congr 1
    funext v
    rw [hcs, bind_assoc]
    congr 1
    funext vs
    rw [pure_bind, List.reverse_cons, List.append_assoc, List.singleton_append]

/-- The postorder of a tree pushes its value, whatever tokens come after it. -/
theorem execute_postorder {t : Tree V ω} (ht : t.Saturated) (hgreedy : Greedy I t.postorder)
    (rest : List (Token V ω)) (stack : List V) :
    execute I bindings (t.postorder ++ rest) stack =
      t.eval I bindings >>= fun v => execute I bindings rest (v :: stack) := by
  induction t using Tree.induction generalizing rest stack with
  | step token cs ih =>
    obtain ⟨harity, hcs⟩ := Tree.saturated_node.1 ht
    have hchildren : ∀ c ∈ cs, ∀ (rest : List (Token V ω)) (stack : List V),
        execute I bindings (c.postorder ++ rest) stack =
          c.eval I bindings >>= fun v => execute I bindings rest (v :: stack) :=
      fun c hc => ih c hc (hcs c hc) fun u hu =>
        hgreedy u (Tree.mem_postorder_node.2 (.inr ⟨c, hc, hu⟩))
    rw [Tree.postorder, List.append_assoc, execute_postorders hchildren, List.singleton_append,
      Tree.eval]
    cases hop : token.item.operation? with
    | none =>
      -- a token without an operation has no children, and pushes a value of its own
      rw [Lexeme.arity_of_operation?_eq_none hop] at harity
      have hnil : cs = [] := List.length_eq_zero_iff.1 (by omega)
      rw [hnil, Tree.evals, pure_bind, execute, List.reverse_nil, List.nil_append,
        executeToken_leaf hop, bind_assoc]
      simp only [pure_bind, Option.map_none]
    | some op =>
      obtain ⟨apply, happly⟩ := hgreedy token (Tree.mem_postorder_node.2 (.inl rfl)) op hop
      simp only [Option.map_some, happly, Tree.isComplete_of_arity harity, if_true, bind_assoc]
      apply Evaluation.bind_congr
      intro s vs s' hvs
      -- there are as many values on the stack as the operation takes off it
      have hlength : (vs.length : Int) = token.item.arity := by
        rw [Tree.length_of_evals hvs, harity]
      rw [execute, executeToken_greedy hop happly hlength, bind_assoc]
      simp only [pure_bind]

/-- **The tree of a postfix list has the value that the list computes.** -/
theorem evaluate_eq_run {ps : List (Token V ω)} {t : Tree V ω} (hbuild : Tree.ofPostfix ps = .ok t)
    (harity : ∀ u ∈ ps, 0 ≤ u.item.arity) (hgreedy : Greedy I ps) :
    t.evaluate I bindings = runPostfix I bindings ps := by
  obtain ⟨rfl, hcomplete⟩ := Tree.postorder_of_ofPostfix hbuild
  have ht := Tree.saturated_of_incomplete? harity hcomplete
  have hrun : execute I bindings t.postorder [] = t.eval I bindings >>= fun v => pure [v] := by
    have hpost : execute I bindings (t.postorder ++ []) [] = _ :=
      execute_postorder ht hgreedy [] []
    rwa [List.append_nil] at hpost
  rw [Tree.evaluate_eq_eval, runPostfix, hrun, bind_assoc]
  simp only [pure_bind, bind_pure]

end

/-! ### An example -/

/-- The call `tick()` advances a counter and has its new value; differences are differences,
and everything else fails. -/
def ticking : Interpretation Int String String Nat
  | .custom "tick" => .greedy fun _ => modifyGet fun n : Nat => ((n : Int) + 1, n + 1)
  | .builtin .sub => .greedy fun
    | [x, y] => pure (x - y)
    | _ => throw .stuck
  | _ => .greedy fun _ => throw (.raised "no meaning")

/-- The postfix list of `tick() - (tick() - x)`. -/
def tickDifferences : List (Token Int String) :=
  [⟨.function ⟨"tick", 0, .custom "tick", some 0⟩, 0⟩,
    ⟨.function ⟨"tick", 0, .custom "tick", some 0⟩, 10⟩, ⟨.var "x", 19⟩,
    ⟨.operator .subtraction, 17⟩, ⟨.operator .subtraction, 7⟩]

theorem greedy_ticking (ts : List (Token Int String)) : Greedy ticking ts := by
  intro t _ op _
  rw [ticking.eq_def]
  split <;> exact ⟨_, rfl⟩

/-- With `x` unbound, the tree and the list fail alike, after the counter has been advanced
twice. -/
theorem evaluate_eq_run_tickDifferences :
    ∃ t, Tree.ofPostfix tickDifferences = .ok t ∧ (∀ u ∈ tickDifferences, 0 ≤ u.item.arity) ∧
      Greedy ticking tickDifferences ∧
      t.evaluate ticking .empty = runPostfix ticking .empty tickDifferences ∧
      (t.evaluate ticking .empty).run.run 0 = (.error (.undefined "x"), 2) := by
  have harity : ∀ u ∈ tickDifferences, 0 ≤ u.item.arity := by
    simp [tickDifferences, Lexeme.arity, Function.arity]
  refine ⟨_, rfl, harity, greedy_ticking _,
    evaluate_eq_run rfl harity (greedy_ticking _), ?_⟩
  rw [evaluate_eq_run rfl harity (greedy_ticking _)]
  rfl

end Formula
