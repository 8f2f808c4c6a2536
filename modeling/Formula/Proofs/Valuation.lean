/-
Formula/Proofs/Valuation.lean

Values under pure operations.  An operation is pure if it gets the values of its operands
and does nothing but compute a result of its own from them.  Where all operations of a tree
are pure, evaluating the tree is `Settled`: it never looks at the state, so that it either
always has the same value or always has the same error.

So "`t` has the value `v`" is the equation `t.eval I b = pure v`, and a node has a value if
it is complete, all its children have values, and the operation has a result for them
(`eval_node_eq_pure`).  Positions play no part in it (`eval_unplaced_eq_pure`).
-/
import Formula.Proofs.Evaluating
import Formula.Proofs.Reading

namespace Formula

variable {V ω ε σ α β : Type}

/-! ### Settled computations -/

namespace Evaluation

/-- The computation has a result or an error, whatever the state, and leaves the state as
it is. -/
def Settled (m : Evaluation ε σ α) : Prop :=
  ∃ r : Except (EvaluationError ε) α, m = ExceptT.mk (pure r)

theorem settled_pure (a : α) : Settled (pure a : Evaluation ε σ α) := ⟨.ok a, rfl⟩

theorem settled_throw (e : EvaluationError ε) : Settled (throw e : Evaluation ε σ α) :=
  ⟨.error e, rfl⟩

theorem Settled.bind {m : Evaluation ε σ α} {f : α → Evaluation ε σ β} (h : Settled m)
    (hf : ∀ a, Settled (f a)) : Settled (m >>= f) := by
  obtain ⟨r, rfl⟩ := h
  cases r with
  | error e => exact ⟨.error e, rfl⟩
  | ok a => exact hf a

/-- If a settled computation has a result once, it always has, and the state stays. -/
theorem Settled.eq_pure {m : Evaluation ε σ α} (h : Settled m) {s s' : σ} {a : α}
    (hrun : m.run.run s = (.ok a, s')) : m = pure a ∧ s' = s := by
  obtain ⟨r, rfl⟩ := h
  have hr : (r, s) = (.ok a, s') := hrun
  obtain ⟨rfl, rfl⟩ := Prod.mk.inj hr
  exact ⟨rfl, rfl⟩

section

variable [Nonempty σ]

theorem pure_injective {a b : α} (h : (pure a : Evaluation ε σ α) = pure b) : a = b := by
  obtain ⟨s⟩ := ‹Nonempty σ›
  have hs : ((.ok a, s) : Except (EvaluationError ε) α × σ) = (.ok b, s) :=
    congrArg (fun m : Evaluation ε σ α => m.run.run s) h
  exact Except.ok.inj (Prod.mk.inj hs).1

theorem throw_ne_pure (e : EvaluationError ε) (a : α) :
    (throw e : Evaluation ε σ α) ≠ pure a := by
  intro h
  obtain ⟨s⟩ := ‹Nonempty σ›
  have hs : ((.error e, s) : Except (EvaluationError ε) α × σ) = (.ok a, s) :=
    congrArg (fun m : Evaluation ε σ α => m.run.run s) h
  cases (Prod.mk.inj hs).1

/-- A settled computation with a continuation has a result only if it has one itself. -/
theorem Settled.of_bind {m : Evaluation ε σ α} {f : α → Evaluation ε σ β} {b : β}
    (h : Settled m) (hb : m >>= f = pure b) : ∃ a, m = pure a ∧ f a = pure b := by
  obtain ⟨r, rfl⟩ := h
  cases r with
  | ok a => exact ⟨a, rfl, hb⟩
  | error e => exact absurd hb (throw_ne_pure e b)

end

end Evaluation

open Evaluation

/-- The operation computes a result from the values of its operands, and does nothing else. -/
def Meaning.Pure : Meaning V ω ε σ → Prop
  | .greedy apply => ∀ vs, Settled (apply vs)
  | .lazy _ => False

namespace Tree

variable {I : Interpretation V ω ε σ} {bindings : Table V}

/-- All operations of the tree are pure. -/
def Pure (I : Interpretation V ω ε σ) (t : Tree V ω) : Prop :=
  ∀ token ∈ t.postorder, ∀ o, token.item.operation? = some o → (I o).Pure

theorem pure_node {token : Token V ω} {cs : List (Tree V ω)} :
    (node token cs).Pure I ↔
      (∀ o, token.item.operation? = some o → (I o).Pure) ∧ ∀ c ∈ cs, c.Pure I := by
  simp only [Pure, mem_postorder_node]
  constructor
  · intro h
    exact ⟨h token (.inl rfl), fun c hc t ht => h t (.inr ⟨c, hc, ht⟩)⟩
  · rintro ⟨hroot, hcs⟩ t (rfl | ⟨c, hc, ht⟩)
    · exact hroot
    · exact hcs c hc t ht

/-! ### Evaluation under pure operations -/

theorem settled_leafValue (bindings : Table V) (l : Lexeme V ω) :
    Settled (leafValue bindings l : Evaluation ε σ V) := by
  rw [leafValue.eq_def]
  split
  · exact settled_pure _
  · exact settled_throw _
  · split
    · exact settled_pure _
    · exact settled_throw _

theorem settled_evals {cs : List (Tree V ω)} (h : ∀ c ∈ cs, Settled (eval I c bindings)) :
    Settled (evals I cs bindings) := by
  induction cs with
  | nil => exact settled_pure []
  | cons c cs ih =>
    rw [evals]
    have hcs := ih fun d hd => h d (List.mem_cons_of_mem _ hd)
    exact (h c (List.mem_cons_self ..)).bind fun v => hcs.bind fun vs => settled_pure (v :: vs)

/-- What a node does whose operation is greedy. -/
theorem eval_greedy {token : Token V ω} {cs : List (Tree V ω)}
    {apply : List V → Evaluation ε σ V}
    (hop : token.item.operation?.map I = some (.greedy apply)) :
    eval I (node token cs) bindings =
      if (node token cs).isComplete then evals I cs bindings >>= apply
      else throw (arityError (node token cs)) := by
  rw [eval, hop]

/-- What a node does that has no operation. -/
theorem eval_leaf {token : Token V ω} {cs : List (Tree V ω)}
    (hop : token.item.operation? = none) :
    eval I (node token cs) bindings = leafValue bindings token.item := by
  rw [eval, hop]
  rfl

/-- A pure operation is greedy. -/
theorem Pure.greedy {token : Token V ω} {cs : List (Tree V ω)} (h : (node token cs).Pure I)
    {o : Operation ω} (ho : token.item.operation? = some o) :
    ∃ apply, token.item.operation?.map I = some (.greedy apply) ∧ ∀ vs, Settled (apply vs) := by
  have hpure := (pure_node.1 h).1 o ho
  rw [ho, Option.map_some]
  cases hI : I o with
  | greedy apply =>
    rw [hI] at hpure
    exact ⟨apply, rfl, hpure⟩
  | lazy apply =>
    rw [hI] at hpure
    exact hpure.elim

/-- Under pure operations, evaluation is settled. -/
theorem Pure.settled {t : Tree V ω} (h : t.Pure I) : Settled (eval I t bindings) := by
  induction t using Tree.induction with
  | step token cs ih =>
    have hcs : Settled (evals I cs bindings) :=
      settled_evals fun c hc => ih c hc ((pure_node.1 h).2 c hc)
    cases ho : token.item.operation? with
    | none =>
      rw [eval_leaf ho]
      exact settled_leafValue bindings token.item
    | some o =>
      obtain ⟨apply, hop, happly⟩ := h.greedy ho
      rw [eval_greedy hop]
      split
      · exact hcs.bind happly
      · exact settled_throw _

/-! ### Values -/

/-- Trees with values have the list of their values. -/
theorem evals_of_map_eval {cs : List (Tree V ω)} {vs : List V}
    (h : cs.map (fun c => eval I c bindings) = vs.map pure) : evals I cs bindings = pure vs := by
  induction cs generalizing vs with
  | nil =>
    rw [List.map_nil] at h
    obtain rfl := List.map_eq_nil_iff.1 h.symm
    rfl
  | cons c cs ih =>
    obtain ⟨v, us, rfl, hv, hus⟩ := List.map_eq_cons_iff.1 h.symm
    have hc : eval I c bindings = pure v := hv.symm
    rw [evals, hc, ih hus.symm, pure_bind, pure_bind]

section

variable [Nonempty σ]

/-- A list of values is a value for each tree. -/
theorem map_eval_of_evals {cs : List (Tree V ω)} {vs : List V}
    (hcs : ∀ c ∈ cs, Settled (eval I c bindings)) (h : evals I cs bindings = pure vs) :
    cs.map (fun c => eval I c bindings) = vs.map pure := by
  induction cs generalizing vs with
  | nil =>
    rw [evals] at h
    rw [← pure_injective h]
    rfl
  | cons c cs ih =>
    have hrest : ∀ d ∈ cs, Settled (eval I d bindings) :=
      fun d hd => hcs d (List.mem_cons_of_mem _ hd)
    rw [evals] at h
    obtain ⟨v, hv, h⟩ := (hcs c (List.mem_cons_self ..)).of_bind h
    obtain ⟨us, hus, h⟩ := (settled_evals hrest).of_bind h
    rw [← pure_injective h, List.map_cons, List.map_cons, hv, ih hrest hus]

/-- If trees are changed so that values stay, their list of values stays. -/
theorem evals_map {cs : List (Tree V ω)} {f g : Tree V ω → Tree V ω} {vs : List V}
    (hfg : ∀ c ∈ cs, ∀ v, eval I (f c) bindings = pure v → eval I (g c) bindings = pure v)
    (hf : ∀ c ∈ cs, Settled (eval I (f c) bindings))
    (h : evals I (cs.map f) bindings = pure vs) : evals I (cs.map g) bindings = pure vs := by
  have hsettled : ∀ d ∈ cs.map f, Settled (eval I d bindings) := by
    intro d hd
    obtain ⟨c, hc, rfl⟩ := List.mem_map.1 hd
    exact hf c hc
  have hvs := map_eval_of_evals hsettled h
  apply evals_of_map_eval
  rw [← hvs, List.map_map, List.map_map]
  apply List.map_congr_left
  intro c hc
  -- the list has a value, so each tree of it has one
  have hmem : eval I (f c) bindings ∈ vs.map pure := by
    rw [← hvs]
    exact List.mem_map_of_mem (List.mem_map_of_mem hc)
  obtain ⟨v, -, hv⟩ := List.mem_map.1 hmem
  show eval I (g c) bindings = eval I (f c) bindings
  rw [hfg c hc v hv.symm, hv]

/-- Two trees have two values. -/
theorem evals_pair {l r : Tree V ω} {vs : List V} (hl : l.Pure I) (hr : r.Pure I)
    (h : evals I [l, r] bindings = pure vs) :
    ∃ x y, vs = [x, y] ∧ eval I l bindings = pure x ∧ eval I r bindings = pure y := by
  have hsettled : ∀ c ∈ [l, r], Settled (eval I c bindings) := by
    intro c hc
    simp only [List.mem_cons, List.not_mem_nil, or_false] at hc
    rcases hc with rfl | rfl
    · exact hl.settled
    · exact hr.settled
  have hvs := map_eval_of_evals hsettled h
  obtain ⟨x, us, rfl, hx, hus⟩ := List.map_eq_cons_iff.1 hvs.symm
  obtain ⟨y, us', rfl, hy, hus'⟩ := List.map_eq_cons_iff.1 hus
  obtain rfl := List.map_eq_nil_iff.1 hus'
  exact ⟨x, y, rfl, hx.symm, hy.symm⟩

/-- The values of a node with a pure operation. -/
theorem eval_node_eq_pure {token : Token V ω} {cs : List (Tree V ω)}
    (h : (node token cs).Pure I) {apply : List V → Evaluation ε σ V}
    (hop : token.item.operation?.map I = some (.greedy apply)) {v : V} :
    eval I (node token cs) bindings = pure v ↔
      (node token cs).isComplete = true ∧
        ∃ vs, evals I cs bindings = pure vs ∧ apply vs = pure v := by
  have hcs : Settled (evals I cs bindings) :=
    settled_evals fun c hc => ((pure_node.1 h).2 c hc).settled
  rw [eval_greedy hop]
  constructor
  · intro hv
    split at hv
    · next hcomplete => exact ⟨hcomplete, hcs.of_bind hv⟩
    · exact absurd hv (throw_ne_pure _ v)
  · rintro ⟨hcomplete, vs, hvs, hv⟩
    rw [if_pos hcomplete, hvs, pure_bind, hv]

end

/-! ### Values without positions -/

theorem isComplete_congr {t u : Token V ω} {cs ds : List (Tree V ω)} (hitem : t.item = u.item)
    (hlength : cs.length = ds.length) : (node t cs).isComplete = (node u ds).isComplete := by
  simp only [isComplete, lexeme, token, children, hitem, hlength]

theorem pure_unplaced {t : Tree V ω} : t.unplaced.Pure I ↔ t.Pure I := by
  induction t using Tree.induction with
  | step token cs ih =>
    rw [unplaced_node, pure_node, pure_node]
    apply and_congr_right
    intro _
    constructor
    · intro h c hc
      exact (ih c hc).1 (h _ (List.mem_map_of_mem hc))
    · intro h d hd
      obtain ⟨c, hc, rfl⟩ := List.mem_map.1 hd
      exact (ih c hc).2 (h c hc)

/-- Trees that differ in positions only have the same values. -/
theorem eval_unplaced_eq_pure [Nonempty σ] {t : Tree V ω} (h : t.Pure I) {v : V} :
    eval I t.unplaced bindings = pure v ↔ eval I t bindings = pure v := by
  induction t using Tree.induction generalizing v with
  | step token cs ih =>
    have hcs := (pure_node.1 h).2
    have hcomplete : (node (⟨token.item, -1⟩ : Token V ω) (cs.map unplaced)).isComplete =
        (node token cs).isComplete := isComplete_congr rfl (List.length_map _)
    have hunplaced : (node (⟨token.item, -1⟩ : Token V ω) (cs.map unplaced)).Pure I := by
      rw [← unplaced_node]
      exact pure_unplaced.2 h
    rw [unplaced_node]
    cases ho : token.item.operation? with
    | none =>
      have ho' : (⟨token.item, -1⟩ : Token V ω).item.operation? = none := ho
      rw [eval_leaf ho', eval_leaf ho]
    | some o =>
      obtain ⟨apply, hop, -⟩ := h.greedy ho
      -- the operation takes the same values from the children, with positions or without
      have hevals : ∀ vs, evals I (cs.map unplaced) bindings = pure vs ↔
          evals I cs bindings = pure vs := by
        intro vs
        constructor
        · intro hvs
          have := evals_map (g := id) (fun c hc v => (ih c hc (hcs c hc)).1)
            (fun c hc => (pure_unplaced.2 (hcs c hc)).settled) hvs
          rwa [List.map_id] at this
        · intro hvs
          rw [← List.map_id cs] at hvs
          exact evals_map (fun c hc v => (ih c hc (hcs c hc)).2)
            (fun c hc => (hcs c hc).settled) hvs
      rw [eval_node_eq_pure hunplaced hop, eval_node_eq_pure h hop, hcomplete]
      simp only [hevals]

end Tree

end Formula
