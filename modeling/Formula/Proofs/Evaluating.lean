/-
Formula/Proofs/Evaluating.lean

The value of a tree, computed with an explicit stack, is the value by recursion on the
tree, whatever the operations do: with the same failures, the same changes of the state,
and the same operands for lazy operations.  A job that has not been touched evaluates its
tree and pushes the value on the stack, whatever jobs come after it
(`evaluateAll_fresh_cons`); the values of the children are on the stack in reverse, which
is the order in which `take?` expects them.

What the recursion says at each kind of node is collected in `Evaluates`, for any function from
trees to values; there is just one that does as it says.

Main statements: `evaluate_eq_eval` and `evaluates_iff_eq_evaluate`.
-/
import Formula.Tree.Evaluation

namespace Formula

variable {V ω ε σ α β : Type}

/-! ### Computations -/

/-- What a computation with a continuation does. -/
theorem Evaluation.bind_apply (m : Evaluation ε σ α) (f : α → Evaluation ε σ β) (s : σ) :
    (m >>= f).run.run s =
      match m.run.run s with
      | (.ok a, s') => (f a).run.run s'
      | (.error e, s') => (.error e, s') := by
  rw [ExceptT.run_bind, StateT.run_bind]
  show (match (ExceptT.run m).run s with | (a, s') => _) = _
  rcases (ExceptT.run m).run s with ⟨e | a, s'⟩ <;> rfl

/-- A continuation matters only at the results that there are. -/
theorem Evaluation.bind_congr {m : Evaluation ε σ α} {f g : α → Evaluation ε σ β}
    (h : ∀ s a s', m.run.run s = (.ok a, s') → f a = g a) : m >>= f = m >>= g := by
  apply ExceptT.ext
  funext s
  show (m >>= f).run.run s = (m >>= g).run.run s
  rw [bind_apply, bind_apply]
  rcases e : m.run.run s with ⟨e' | a, s'⟩
  · rfl
  · show (f a).run.run s' = (g a).run.run s'
    rw [h s a s' e]

namespace Tree

variable {I : Interpretation V ω ε σ}

theorem suspend_eq_map (cs : List (Tree V ω)) :
    suspend I cs = cs.map fun c => ⟨c, eval I c⟩ := by
  induction cs with
  | nil => rfl
  | cons c cs ih => rw [suspend, List.map_cons, ih]

/-- There are as many values as trees. -/
theorem length_of_evals {cs : List (Tree V ω)} {bindings : Table V} {s s' : σ} {vs : List V}
    (h : (evals I cs bindings).run.run s = (.ok vs, s')) : vs.length = cs.length := by
  induction cs generalizing s s' vs with
  | nil =>
    rw [evals] at h
    rw [← Except.ok.inj (Prod.mk.inj h).1]
    rfl
  | cons c cs ih =>
    rw [evals, Evaluation.bind_apply] at h
    rcases hc : (eval I c bindings).run.run s with ⟨e | v, s₁⟩
    · rw [hc] at h
      cases h
    · rw [hc] at h
      simp only [Evaluation.bind_apply] at h
      rcases hcs : (evals I cs bindings).run.run s₁ with ⟨e | us, s₂⟩
      · rw [hcs] at h
        cases h
      · have hlength := ih hcs
        rw [hcs] at h
        rw [← Except.ok.inj (Prod.mk.inj h).1, List.length_cons, List.length_cons, hlength]

/-! ### Jobs -/

/-- Jobs that have not been touched leave the values of their trees on the stack. -/
theorem evaluateAll_fresh {cs : List (Tree V ω)} {bindings : Table V}
    (h : ∀ c ∈ cs, ∀ (jobs : List (Job V ω)) (stack : List V),
      evaluateAll I bindings ((c, false) :: jobs) stack =
        eval I c bindings >>= fun v => evaluateAll I bindings jobs (v :: stack))
    (jobs : List (Job V ω)) (stack : List V) :
    evaluateAll I bindings (fresh cs ++ jobs) stack =
      evals I cs bindings >>= fun vs => evaluateAll I bindings jobs (vs.reverse ++ stack) := by
  induction cs generalizing stack with
  | nil =>
    rw [evals, pure_bind]
    rfl
  | cons c cs ih =>
    have hcs := ih fun d hd => h d (List.mem_cons_of_mem _ hd)
    rw [fresh, List.cons_append, h c (List.mem_cons_self ..), evals, bind_assoc]
    congr 1
    funext v
    rw [hcs, bind_assoc]
    congr 1
    funext vs
    rw [pure_bind, List.reverse_cons, List.append_assoc, List.singleton_append]

/-- A job whose children have been dealt with takes their values off the stack. -/
theorem evaluateAll_expanded {token : Token V ω} {cs : List (Tree V ω)} {bindings : Table V}
    {apply : List V → Evaluation ε σ V}
    (hgreedy : token.item.operation?.map I = some (.greedy apply))
    {vs : List V} (hvs : vs.length = cs.length) (jobs : List (Job V ω)) (stack : List V) :
    evaluateAll I bindings ((node token cs, true) :: jobs) (vs.reverse ++ stack) =
      apply vs >>= fun v => evaluateAll I bindings jobs (v :: stack) := by
  have htake : take? cs.length (vs.reverse ++ stack) = some (vs, stack) := by
    rw [← hvs]
    exact take?_append vs stack
  rw [evaluateAll, hgreedy, htake]

theorem evaluateAll_fresh_cons (t : Tree V ω) (bindings : Table V) (jobs : List (Job V ω))
    (stack : List V) :
    evaluateAll I bindings ((t, false) :: jobs) stack =
      eval I t bindings >>= fun v => evaluateAll I bindings jobs (v :: stack) := by
  induction t using Tree.induction generalizing bindings jobs stack with
  | step token cs ih =>
    rw [evaluateAll, eval]
    rcases hop : token.item.operation?.map I with _ | apply | apply
    · rfl
    · simp only
      split
      · -- the values of the children are as many as the operation takes off the stack
        rw [evaluateAll_fresh fun c hc => ih c hc bindings, bind_assoc]
        apply Evaluation.bind_congr
        intro s vs s' hvs
        exact evaluateAll_expanded hop (length_of_evals hvs) jobs stack
      · rfl
    · -- forcing an operand starts a stack of its own
      have hoperands : (cs.attach.map fun c => (⟨c.1, fun bindings =>
          evaluateAll I bindings [(c.1, false)] [] >>= top⟩ : Suspended V ω ε σ)) =
            suspend I cs := by
        rw [suspend_eq_map, ← List.attach_map_subtype_val cs, List.map_map,
          List.attach_map_subtype_val]
        apply List.map_congr_left
        intro c _
        have hforce : (fun bindings => evaluateAll I bindings [(c.1, false)] [] >>= top) =
            eval I c.1 := by
          funext bindings
          rw [ih c.1 c.2]
          simp [evaluateAll, top]
        exact congrArg (Suspended.mk c.1) hforce
      simp only [hoperands]

/-- **The stack computes the value by recursion.** -/
theorem evaluate_eq_eval (t : Tree V ω) (bindings : Table V) :
    t.evaluate I bindings = t.eval I bindings := by
  rw [evaluate, evaluateAll_fresh_cons, bind_assoc]
  simp [evaluateAll, top]

/-! ### The equations of evaluation -/

/-- `value` gives every tree the value that its root and the values of its children ask for.
Lazy operations get the children with `value` to force them, and nothing is evaluated before. -/
structure Evaluates (I : Interpretation V ω ε σ)
    (value : Tree V ω → Table V → Evaluation ε σ V) : Prop where
  operand {v : V} {p : Int} {cs : List (Tree V ω)} {bindings : Table V} :
    value (node ⟨.operand v, p⟩ cs) bindings = pure v
  bound {label : String} {p : Int} {cs : List (Tree V ω)} {bindings : Table V} {v : V} :
    bindings.get? label = some v → value (node ⟨.var label, p⟩ cs) bindings = pure v
  unbound {label : String} {p : Int} {cs : List (Tree V ω)} {bindings : Table V} :
    bindings.get? label = none →
      value (node ⟨.var label, p⟩ cs) bindings = throw (.undefined label)
  mark {m : String} {p : Int} {cs : List (Tree V ω)} {bindings : Table V} :
    value (node ⟨.punctuation m, p⟩ cs) bindings = throw (.structural m)
  lazy {token : Token V ω} {cs : List (Tree V ω)} {bindings : Table V} {op : Operation ω}
    {apply : List (Suspended V ω ε σ) → Table V → Evaluation ε σ V} :
    token.item.operation? = some op → I op = .lazy apply →
      value (node token cs) bindings = apply (cs.map fun c => ⟨c, value c⟩) bindings
  incomplete {token : Token V ω} {cs : List (Tree V ω)} {bindings : Table V} {op : Operation ω}
    {apply : List V → Evaluation ε σ V} :
    token.item.operation? = some op → I op = .greedy apply →
      (node token cs).isComplete = false → value (node token cs) bindings =
        throw (.arity token.item.label token.item.arity cs.length token.position)
  greedy {token : Token V ω} {cs : List (Tree V ω)} {bindings : Table V} {op : Operation ω}
    {apply : List V → Evaluation ε σ V} :
    token.item.operation? = some op → I op = .greedy apply →
      (node token cs).isComplete = true → value (node token cs) bindings =
        (cs.mapM fun c => value c bindings) >>= apply

section

variable {value : Tree V ω → Table V → Evaluation ε σ V}

theorem mapM_eq_evals {cs : List (Tree V ω)} {bindings : Table V}
    (h : ∀ c ∈ cs, value c bindings = eval I c bindings) :
    (cs.mapM fun c => value c bindings) = evals I cs bindings := by
  induction cs with
  | nil => rfl
  | cons c cs ih =>
    rw [List.mapM_cons, evals, h c (List.mem_cons_self ..),
      ih fun d hd => h d (List.mem_cons_of_mem _ hd)]

/-- The value by recursion satisfies the equations. -/
theorem evaluates_eval : Evaluates I (eval I) where
  operand := by
    intro v p cs bindings
    rw [eval]
    rfl
  bound := by
    intro label p cs bindings v hv
    rw [eval]
    show leafValue bindings (.var label) = _
    simp only [leafValue, Lexeme.label, hv]
  unbound := by
    intro label p cs bindings hnone
    rw [eval]
    show leafValue bindings (.var label) = _
    simp only [leafValue, Lexeme.label, hnone]
  mark := by
    intro m p cs bindings
    rw [eval]
    rfl
  lazy := by
    intro token cs bindings op apply hop happly
    rw [eval, hop, Option.map_some, happly, suspend_eq_map]
  incomplete := by
    intro token cs bindings op apply hop happly hcomplete
    rw [eval, hop, Option.map_some, happly]
    exact if_neg (by rw [hcomplete]; exact Bool.false_ne_true)
  greedy := by
    intro token cs bindings op apply hop happly hcomplete
    rw [eval, hop, Option.map_some, happly, mapM_eq_evals fun _ _ => rfl]
    exact if_pos hcomplete

/-- Nothing else does: below a node the values are the same, so they are the same at it. -/
theorem Evaluates.eq_eval (h : Evaluates I value) (t : Tree V ω) : value t = eval I t := by
  have heval : Evaluates I (eval I) := evaluates_eval
  induction t using Tree.induction with
  | step token cs ih =>
    funext bindings
    obtain ⟨l, p⟩ := token
    cases hop : l.operation? with
    | none =>
      cases l with
      | operand v => rw [h.operand, heval.operand]
      | var label =>
        cases hv : bindings.get? label with
        | some v => rw [h.bound hv, heval.bound hv]
        | none => rw [h.unbound hv, heval.unbound hv]
      | punctuation m => rw [h.mark, heval.mark]
      | operator op => cases hop
      | function f => cases hop
    | some op =>
      cases happly : I op with
      | lazy apply =>
        have hchildren : (cs.map fun c => (⟨c, value c⟩ : Suspended V ω ε σ)) =
            cs.map fun c => ⟨c, eval I c⟩ :=
          List.map_congr_left fun c hc => congrArg (Suspended.mk c) (ih c hc)
        rw [h.lazy hop happly, heval.lazy hop happly, hchildren]
      | greedy apply =>
        cases hcomplete : (node ⟨l, p⟩ cs).isComplete with
        | false => rw [h.incomplete hop happly hcomplete, heval.incomplete hop happly hcomplete]
        | true =>
          rw [h.greedy hop happly hcomplete, heval.greedy hop happly hcomplete,
            mapM_eq_evals fun c hc => congrFun (ih c hc) bindings, mapM_eq_evals fun _ _ => rfl]

/-- **The stack computes the one function that satisfies the equations of evaluation.** -/
theorem evaluates_iff_eq_evaluate : Evaluates I value ↔ value = evaluate I := by
  have heval : evaluate I = eval I := by
    funext t bindings
    exact evaluate_eq_eval t bindings
  rw [heval]
  constructor
  · intro h
    funext t
    exact h.eq_eval t
  · rintro rfl
    exact evaluates_eval

end

end Tree

end Formula
