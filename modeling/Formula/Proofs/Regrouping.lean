/-
Formula/Proofs/Regrouping.lean

The value of what a printed tree is read as.  Rereading regroups factors: a product that is
the second factor of another is taken apart, and its factors are multiplied from the left.
So the value stays if the multiplication is associative on the values of these factors
(`Multiplies`).  Other values need not be multiplied in a better way than they are.

Two things are shown of a tree at once, by induction on it: what is read for it alone has its
value, and what is read for it after a factor has the value of the product (`Keeps`).

Main statement: `keeps_of_printable`.
-/
import Formula.Proofs.Rereading
import Formula.Proofs.Valuation

namespace Formula

variable {V ω ε σ : Type}

/-- The implied and the written multiplication are one operation.  Among the values with the
property `P` it always has a result of the same kind, and it is associative. -/
structure Multiplies (I : Interpretation V ω ε σ) (product : List V → Evaluation ε σ V)
    (P : V → Prop) : Prop where
  implied : I (.builtin .juxtapose) = .greedy product
  written : I (.builtin .mul) = .greedy product
  closed : ∀ x y, P x → P y → ∃ z, P z ∧ product [x, y] = pure z
  assoc : ∀ x y z, P x → P y → P z →
    (product [x, y] >>= fun u => product [u, z]) = product [y, z] >>= fun w => product [x, w]

namespace Tree

section

variable {I : Interpretation Scalar ω ε σ} {bindings : Table Scalar}
  {product : List Scalar → Evaluation ε σ Scalar} {P : Scalar → Prop}

/-! ### Products -/

/-- The value of a product from those of its factors. -/
theorem eval_juxtaposed (h : Multiplies I product P) {x y : Tree Scalar ω} {u w : Scalar}
    (p : Int) (hx : eval I x bindings = pure u) (hy : eval I y bindings = pure w) :
    eval I (node ⟨.operator .juxtaposition, p⟩ [x, y]) bindings = product [u, w] := by
  have hop : (⟨.operator .juxtaposition, p⟩ : Token Scalar ω).item.operation?.map I =
      some (.greedy product) := congrArg some h.implied
  have hvalues : evals I [x, y] bindings = pure [u, w] :=
    evals_of_map_eval (by rw [List.map_cons, List.map_cons, hx, hy]; rfl)
  have hcomplete : (node (⟨.operator .juxtaposition, p⟩ : Token Scalar ω) [x, y]).isComplete =
      true := rfl
  rw [eval_greedy hop, if_pos hcomplete, hvalues, pure_bind]

/-- A product has a value only if its factors have values. -/
theorem eval_of_juxtaposed [Nonempty σ] (h : Multiplies I product P) {x y : Tree Scalar ω}
    {p : Int} {v : Scalar} (hpure : (node ⟨.operator .juxtaposition, p⟩ [x, y]).Pure I)
    (hv : eval I (node ⟨.operator .juxtaposition, p⟩ [x, y]) bindings = pure v) :
    ∃ u w, eval I x bindings = pure u ∧ eval I y bindings = pure w ∧ product [u, w] = pure v := by
  have hop : (⟨.operator .juxtaposition, p⟩ : Token Scalar ω).item.operation?.map I =
      some (.greedy product) := congrArg some h.implied
  obtain ⟨-, vs, hvs, happly⟩ := (eval_node_eq_pure hpure hop).1 hv
  have hchildren := (pure_node.1 hpure).2
  obtain ⟨u, w, rfl, hu, hw⟩ := evals_pair (hchildren x (by simp)) (hchildren y (by simp)) hvs
  exact ⟨u, w, hu, hw, happly⟩

variable [DecidableEq ω]

/-! ### Factors -/

mutual

/-- The factors of a product that is written with blanks, or the tree alone. -/
def factors : Tree Scalar ω → List (Tree Scalar ω)
  | node t cs => if (node t cs).isSpaced then factorsAll cs else [node t cs]

/-- The factors of several trees. -/
def factorsAll : List (Tree Scalar ω) → List (Tree Scalar ω)
  | [] => []
  | c :: cs => factors c ++ factorsAll cs

end

theorem factors_of_spaced {t : Token Scalar ω} {l r : Tree Scalar ω}
    (h : (node t [l, r]).isSpaced = true) : (node t [l, r]).factors = l.factors ++ r.factors := by
  rw [factors, if_pos h, factorsAll, factorsAll, factorsAll, List.append_nil]

theorem factors_of_not_spaced {t : Tree Scalar ω} (h : t.isSpaced = false) :
    t.factors = [t] := by
  obtain ⟨t, cs⟩ := t
  rw [factors, h, if_neg Bool.false_ne_true]

/-- The values of the trees have the property `P`. -/
def ValuesIn (I : Interpretation Scalar ω ε σ) (bindings : Table Scalar) (P : Scalar → Prop)
    (ts : List (Tree Scalar ω)) : Prop :=
  ∀ t ∈ ts, ∀ v, eval I t bindings = pure v → P v

/-- Wherever a product is the second factor of a product, the values of its factors and of
the first one have the property `P`. -/
def ProductsIn (I : Interpretation Scalar ω ε σ) (bindings : Table Scalar) (P : Scalar → Prop)
    (t : Tree Scalar ω) : Prop :=
  ∀ p l r, node ⟨.operator .juxtaposition, p⟩ [l, r] ∈ t.preorder → r.isSpaced = true →
    ValuesIn I bindings P (l :: r.factors)

theorem ProductsIn.child {token : Token Scalar ω} {cs : List (Tree Scalar ω)}
    (h : ProductsIn I bindings P (node token cs)) {c : Tree Scalar ω} (hc : c ∈ cs) :
    ProductsIn I bindings P c :=
  fun p l r hmem => h p l r (mem_preorder_node.2 (.inr ⟨c, hc, hmem⟩))

/-! ### Keeping values -/

/-- What is read for the tree has its value, alone and after a factor. -/
structure Keeps (I : Interpretation Scalar ω ε σ) (bindings : Table Scalar)
    (product : List Scalar → Evaluation ε σ Scalar) (P : Scalar → Prop) (t : Tree Scalar ω) :
    Prop where
  alone : ∀ v, eval I t bindings = pure v → eval I t.reread bindings = pure v
  after : ∀ a u v w, eval I a bindings = pure u → eval I t bindings = pure v →
    product [u, v] = pure w → (t.isSpaced = true → P u ∧ ValuesIn I bindings P t.factors) →
      eval I (readAfter (some a) t) bindings = pure w

/-- A tree that is no product is multiplied as it is. -/
theorem Keeps.of_not_spaced (h : Multiplies I product P) {t : Tree Scalar ω}
    (hspaced : t.isSpaced = false)
    (halone : ∀ v, eval I t bindings = pure v → eval I t.reread bindings = pure v) :
    Keeps I bindings product P t where
  alone := halone
  after a u v w ha hv hw _ := by
    rw [readAfter_some hspaced, eval_juxtaposed h _ ha (halone v hv), hw]

theorem operation_writtenToken (h : Multiplies I product P) (t : Token Scalar ω) :
    (writtenToken t).item.operation?.map I = t.item.operation?.map I := by
  obtain ⟨l, p⟩ := t
  cases l with
  | operator op =>
    simp only [writtenToken, writtenFor, Lexeme.operation?, Option.map_some]
    split
    · next hop =>
      obtain rfl : op = .juxtaposition := by simpa [Operator.isJuxtaposition] using hop
      exact congrArg some (h.written.trans h.implied.symm)
    · rfl
  | _ => rfl

theorem isComplete_writtenToken (t : Token Scalar ω) (cs : List (Tree Scalar ω)) :
    (node (writtenToken t) (cs.map reread)).isComplete = (node t cs).isComplete := by
  obtain ⟨l, p⟩ := t
  cases l with
  | operator op =>
    simp only [writtenToken, writtenFor]
    split
    · next hop =>
      obtain rfl : op = .juxtaposition := by simpa [Operator.isJuxtaposition] using hop
      simp [isComplete, lexeme, token, children, Lexeme.arity, Operator.arity, Operator.isBinary,
        Operator.juxtaposition, Operator.multiplication]
    · exact isComplete_congr rfl (List.length_map _)
  | _ => exact isComplete_congr rfl (List.length_map _)

variable [Nonempty σ]

/-- Where there is no blank, values stay if those of the children do. -/
theorem eval_reread_node (h : Multiplies I product P) {token : Token Scalar ω}
    {cs : List (Tree Scalar ω)} (hspaced : (node token cs).isSpaced = false)
    (hpure : (node token cs).Pure I)
    (hcs : ∀ c ∈ cs, ∀ v, eval I c bindings = pure v → eval I c.reread bindings = pure v)
    {v : Scalar} (hv : eval I (node token cs) bindings = pure v) :
    eval I (node token cs).reread bindings = pure v := by
  rw [reread_node hspaced]
  cases ho : token.item.operation? with
  | none =>
    have htoken : writtenToken token = token := by
      obtain ⟨l, p⟩ := token
      cases l with
      | operator op => cases ho
      | _ => rfl
    rw [htoken, eval_leaf ho, ← hv, eval_leaf ho]
  | some o =>
    obtain ⟨apply, hop, -⟩ := hpure.greedy ho
    obtain ⟨hcomplete, vs, hvs, happly⟩ := (eval_node_eq_pure hpure hop).1 hv
    have hvalues : evals I (cs.map reread) bindings = pure vs := by
      rw [← List.map_id cs] at hvs
      exact evals_map hcs (fun c hc => ((pure_node.1 hpure).2 c hc).settled) hvs
    rw [eval_greedy ((operation_writtenToken h token).trans hop), isComplete_writtenToken,
      if_pos hcomplete, hvalues, pure_bind, happly]

/-- If the values of all factors have the property `P`, so has the value of the product. -/
theorem value_of_factors (h : Multiplies I product P) {D : Dictionary Scalar ω}
    {t : Tree Scalar ω} (ht : Printable D t) (hpure : t.Pure I)
    (hfactors : ValuesIn I bindings P t.factors) {v : Scalar}
    (hv : eval I t bindings = pure v) : P v := by
  induction t, ht using Printable.induction_spaced generalizing v with
  | plain token cs hspaced _ _ =>
    rw [factors_of_not_spaced hspaced] at hfactors
    exact hfactors _ (List.mem_singleton_self _) v hv
  | spaced p l r hspaced _ _ ihl ihr =>
    rw [factors_of_spaced hspaced] at hfactors
    have hchildren := (pure_node.1 hpure).2
    obtain ⟨u, w, hu, hw, hproduct⟩ := eval_of_juxtaposed h hpure hv
    have hPu := ihl (hchildren l (by simp)) (fun x hx => hfactors x (List.mem_append_left _ hx)) hu
    have hPw := ihr (hchildren r (by simp)) (fun x hx => hfactors x (List.mem_append_right _ hx)) hw
    obtain ⟨z, hPz, hz⟩ := h.closed u w hPu hPw
    rwa [Evaluation.pure_injective (hproduct.symm.trans hz)]

/-- A product of products, one after the other. -/
theorem Keeps.spaced (h : Multiplies I product P) {D : Dictionary Scalar ω}
    {l r : Tree Scalar ω} {p : Int}
    (hspaced : (node ⟨.operator .juxtaposition, p⟩ [l, r]).isSpaced = true)
    (hpl : Printable D l) (hpr : Printable D r)
    (hpure : (node ⟨.operator .juxtaposition, p⟩ [l, r]).Pure I)
    (hproducts : r.isSpaced = true → ValuesIn I bindings P (l :: r.factors))
    (hl : Keeps I bindings product P l) (hr : Keeps I bindings product P r) :
    Keeps I bindings product P (node ⟨.operator .juxtaposition, p⟩ [l, r]) where
  alone v hv := by
    obtain ⟨x, y, hx, hy, hxy⟩ := eval_of_juxtaposed h hpure hv
    rw [reread, readAfter_spaced hspaced]
    refine hr.after l.reread x y v (hl.alone x hx) hy hxy fun hright => ?_
    have hvalues := hproducts hright
    refine ⟨hvalues l (List.mem_cons_self ..) x hx, ?_⟩
    exact fun t ht => hvalues t (List.mem_cons_of_mem _ ht)
  after a u v w ha hv hw hvalues := by
    obtain ⟨x, y, hx, hy, hxy⟩ := eval_of_juxtaposed h hpure hv
    obtain ⟨hPu, hfactors⟩ := hvalues hspaced
    rw [factors_of_spaced hspaced] at hfactors
    have hchildren := (pure_node.1 hpure).2
    have hlfactors : ValuesIn I bindings P l.factors :=
      fun t ht => hfactors t (List.mem_append_left _ ht)
    have hrfactors : ValuesIn I bindings P r.factors :=
      fun t ht => hfactors t (List.mem_append_right _ ht)
    have hPx := value_of_factors h hpl (hchildren l (by simp)) hlfactors hx
    have hPy := value_of_factors h hpr (hchildren r (by simp)) hrfactors hy
    -- `a l` has a value, and it can be multiplied with `r` instead of `l`
    obtain ⟨z, hPz, hz⟩ := h.closed u x hPu hPx
    have hregrouped : product [z, y] = pure w := by
      have hassoc := h.assoc u x y hPu hPx hPy
      rwa [hz, pure_bind, hxy, pure_bind, hw] at hassoc
    have hleft := hl.after a u x z ha hx hz fun _ => ⟨hPu, hlfactors⟩
    rw [readAfter_spaced hspaced]
    exact hr.after _ z y w hleft hy hregrouped fun _ => ⟨hPz, hrfactors⟩

/-- **What is read for a printed tree has its value**, if multiplication is associative on
the values of the factors that are regrouped. -/
theorem keeps_of_printable (h : Multiplies I product P) {D : Dictionary Scalar ω}
    {t : Tree Scalar ω} (ht : Printable D t) (hpure : t.Pure I)
    (hproducts : ProductsIn I bindings P t) : Keeps I bindings product P t := by
  induction t, ht using Printable.induction_spaced with
  | plain token cs hspaced _ ih =>
    refine .of_not_spaced h hspaced fun v hv => eval_reread_node h hspaced hpure ?_ hv
    intro c hc
    obtain ⟨-, ih⟩ := ih c hc
    exact (ih ((pure_node.1 hpure).2 c hc) (hproducts.child hc)).alone
  | spaced p l r hspaced hpl hpr ihl ihr =>
    have hchildren := (pure_node.1 hpure).2
    have hl := ihl (hchildren l (by simp)) (hproducts.child (by simp))
    have hr := ihr (hchildren r (by simp)) (hproducts.child (by simp))
    exact .spaced h hspaced hpl hpr hpure
      (hproducts p l r (mem_preorder_node.2 (.inl rfl))) hl hr

end

end Tree

end Formula
