/-
Formula/Proofs/Fidelity.lean

Does the text of an expression mean the same as the expression?  It can always be read again,
with the reader that read the expression in the first place.

If no factor that is a product of its own begins with a sign, what is read has the same
values as the expression.  Factors of products within products are regrouped, so their
multiplication has to be associative; that of integers and ratios is
(`Scalar.associates_exact`), that of doubles is not.

Otherwise a sign is lost, and what is read is another expression: it has another value in
the arithmetic that counts signs, in which multiplication is associative.

Main statement: `read_text`.
-/
import Formula.Proofs.Rebuilding
import Formula.Proofs.RoundTrip
import Formula.Proofs.Tally
import Formula.Routine

namespace Formula

variable {V ω ε σ : Type}

/-! ### Multiplication of scalars -/

namespace Scalar

/-- Among these scalars multiplication always has a result of their kind, and it is
associative. -/
structure Associates (P : Scalar → Prop) : Prop where
  closed : ∀ a b, P a → P b → ∃ c, P c ∧ mul a b = .ok c
  assoc : ∀ a b c, P a → P b → P c →
    (mul a b >>= fun u => mul u c) = mul b c >>= fun w => mul a w

/-- Integers and ratios. -/
def IsExact : Scalar → Prop
  | integer _ | ratio _ => True
  | _ => False

theorem associates_exact : Associates IsExact where
  closed a b ha hb := by
    cases a <;> cases b <;> first
      | exact ha.elim
      | exact hb.elim
      | exact ⟨.integer _, trivial, rfl⟩
      | exact ⟨.ratio _, trivial, rfl⟩
  assoc a b c ha hb hc := by
    cases a <;> cases b <;> cases c <;> first
      | exact ha.elim
      | exact hb.elim
      | exact hc.elim
      | simp [mul, pair, bind, Except.bind, pure, Except.pure, Int.mul_assoc, Rat.mul_assoc]

end Scalar

namespace Routine

open Evaluation

theorem settled_lift {α : Type} (e : Except Failure α) : Settled (lift e) := by
  cases e with
  | ok a => exact settled_pure a
  | error f => exact settled_throw _

theorem settled_nth {α : Type} (xs : List α) (i : Nat) : Settled (nth xs i) := by
  rw [nth]
  split
  · exact settled_pure _
  · exact settled_throw _

/-- The built-in operations are pure. -/
theorem settled_builtin (b : Builtin) (vs : List Scalar) : Settled (builtin b vs) := by
  have hunary : ∀ f : Scalar → Except Failure Scalar, Settled (unary f vs) :=
    fun f => (settled_nth vs 0).bind fun a => settled_lift (f a)
  have hbinary : ∀ f : Scalar → Scalar → Except Failure Scalar, Settled (binary f vs) :=
    fun f => (settled_nth vs 0).bind fun a => (settled_nth vs 1).bind fun b => settled_lift (f a b)
  cases b <;> first | exact hbinary _ | exact hunary _

theorem lift_bind (e : Except Failure Scalar) (f : Scalar → Except Failure Scalar) :
    (lift e >>= fun a => lift (f a)) = lift (e >>= f) := by
  cases e <;> rfl

/-- In the arithmetic of the library, multiplication is associative where that of scalars is. -/
theorem multiplies {I : Interpretation Scalar ω Refusal Nat}
    (hI : ∀ b, I (.builtin b) = .greedy (builtin b)) {P : Scalar → Prop}
    (hP : Scalar.Associates P) : Multiplies I (builtin .mul) P where
  implied := hI .juxtapose
  written := hI .mul
  closed x y hx hy := by
    obtain ⟨z, hz, hxy⟩ := hP.closed x y hx hy
    refine ⟨z, hz, ?_⟩
    show lift (Scalar.mul x y) = _
    rw [hxy]
    rfl
  assoc x y z hx hy hz := by
    show (lift (Scalar.mul x y) >>= fun u => lift (Scalar.mul u z)) =
      lift (Scalar.mul y z) >>= fun w => lift (Scalar.mul x w)
    rw [lift_bind, lift_bind, hP.assoc x y z hx hy hz]

end Routine

/-! ### Printable trees -/

/-- The functions of the dictionary are pure. -/
def Dictionary.PureFunctions (D : Dictionary V ω) (I : Interpretation V ω ε σ) : Prop :=
  ∀ label f, D.function? label = some f → (I f.item.operation).Pure

theorem operation_of_predefined {op : Operator ω}
    (h : op ∈ Operator.written ∨ op ∈ Operator.signs) : ∃ b, op.operation = .builtin b := by
  simp only [Operator.written, Operator.signs, List.mem_cons, List.not_mem_nil, or_false] at h
  rcases h with (rfl | rfl | rfl | rfl | rfl | rfl) | (rfl | rfl) <;> exact ⟨_, rfl⟩

section

variable {D : Dictionary Scalar ω} {t : Tree Scalar ω}

theorem Printable.pure {I : Interpretation Scalar ω ε σ} (hbuiltin : ∀ b, (I (.builtin b)).Pure)
    (hfunctions : D.PureFunctions I) (h : Printable D t) : t.Pure I := by
  have hpredefined : ∀ {op : Operator ω}, op ∈ Operator.written ∨ op ∈ Operator.signs →
      ∀ o, (Lexeme.operator op : Lexeme Scalar ω).operation? = some o → (I o).Pure := by
    intro op hop o ho
    obtain ⟨b, hb⟩ := operation_of_predefined hop
    rw [← Option.some.inj ho, hb]
    exact hbuiltin b
  induction h with
  | number n p | var p _ _ => exact Tree.pure_node.2 ⟨nofun, by simp⟩
  | call p hf _ _ ih =>
    refine Tree.pure_node.2 ⟨?_, ih⟩
    intro o ho
    rw [← Option.some.inj ho]
    exact hfunctions _ _ hf
  | sign p hop _ ih => exact Tree.pure_node.2 ⟨hpredefined (.inr hop), by simpa using ih⟩
  | juxtaposed p _ _ ihl ihr =>
    refine Tree.pure_node.2 ⟨?_, by simpa using ⟨ihl, ihr⟩⟩
    intro o ho
    rw [← Option.some.inj ho]
    exact hbuiltin .juxtapose
  | between p hop _ _ ihl ihr =>
    exact Tree.pure_node.2 ⟨hpredefined (.inl hop), by simpa using ⟨ihl, ihr⟩⟩

/-- There are no structural marks in a printable tree. -/
theorem Printable.isPunctuation (h : Printable D t) :
    ∀ token ∈ t.postorder, token.item.isPunctuation = false := by
  induction h with
  | number n p | var p _ _ =>
    intro token htoken
    rw [List.mem_singleton.1 htoken]
    rfl
  | call p _ _ _ ih =>
    intro token htoken
    rcases Tree.mem_postorder_node.1 htoken with rfl | ⟨c, hc, hmem⟩
    · rfl
    · exact ih c hc token hmem
  | sign p _ _ ih =>
    intro token htoken
    rcases Tree.mem_postorder_node.1 htoken with rfl | ⟨c, hc, hmem⟩
    · rfl
    · rw [List.mem_singleton.1 hc] at hmem
      exact ih token hmem
  | juxtaposed p _ _ ihl ihr | between p _ _ _ ihl ihr =>
    intro token htoken
    rcases Tree.mem_postorder_node.1 htoken with rfl | ⟨c, hc, hmem⟩
    · rfl
    · simp only [List.mem_cons, List.not_mem_nil, or_false] at hc
      rcases hc with rfl | rfl
      · exact ihl token hmem
      · exact ihr token hmem

/-- The text of an expression over a printable tree. -/
theorem Printable.text_eq [DecidableEq ω] (h : Printable D t) :
    ((Reader.integers D).expression (some t)).text = .ok (t.text plainSpelling) := by
  have hmarks : (t.postorder.find? fun token => token.item.isPunctuation) = none := by
    rw [List.find?_eq_none]
    intro token htoken
    rw [h.isPunctuation token htoken]
    exact Bool.false_ne_true
  simp only [Expression.text, Reader.expression, hmarks]
  rw [Tree.render_eq_text, plainSpelling_eq]

end

/-! ### Reading again -/

/-- Wherever `e` has a value, `e'` has the same value. -/
def Expression.Retains (I : Interpretation V ω ε σ) (given : Option (Table V))
    (e e' : Expression V ω) : Prop :=
  ∀ v s s', (e.evaluate I given).run.run s = (.ok v, s') →
    (e'.evaluate I given).run.run s = (.ok v, s')

/-- The expressions of a reader have the same constants, so its bindings are those of any
other one. -/
theorem Reader.evaluate_expression {I : Interpretation V ω ε σ} (R : Reader V ω)
    (t : Tree V ω) (root : Option (Tree V ω)) (given : Option (Table V)) :
    (R.expression (some t)).evaluate I given = t.eval I ((R.expression root).bindings given) := by
  show t.evaluate I _ = _
  rw [Tree.evaluate_eq_eval]
  cases given <;> rfl

/-- All variables of the trees, as zeros. -/
def Tree.zeros (ts : List (Tree Scalar ω)) : Table Scalar :=
  ⟨(ts.flatMap fun t => t.postorder.map fun token => token.item.label).map
    fun label => (label, .integer 0)⟩

theorem Tree.get?_zeros {constants : Table Scalar} {ts : List (Tree Scalar ω)}
    {t : Tree Scalar ω} (ht : t ∈ ts) {token : Token Scalar ω} (htoken : token ∈ t.postorder)
    {label : String} (hlabel : token.item = .var label) :
    (constants.override (zeros ts)).get? label = some (.integer 0) := by
  apply Table.get?_override_const
  · intro e he
    obtain ⟨l, -, rfl⟩ := List.mem_map.1 he
    rfl
  · left
    rw [Table.labels, zeros, List.map_map]
    refine List.mem_map.2 ⟨label, ?_, rfl⟩
    refine List.mem_flatMap.2 ⟨t, ht, List.mem_map.2 ⟨token, htoken, ?_⟩⟩
    rw [hlabel]
    rfl

section

variable {D : Dictionary Scalar ω} {t t' : Tree Scalar ω}

/-- The value of an expression in the arithmetic that counts signs. -/
theorem evaluate_tally {ts : List (Tree Scalar ω)} (hmem : t ∈ ts) (ht : Printable D t) :
    ((Reader.integers D).expression (some t)).evaluate (tally : Interpretation Scalar ω ε σ)
      (some (Tree.zeros ts)) = pure (.integer t.worth) := by
  rw [Reader.evaluate_expression _ t none]
  refine Tree.eval_tally ht ?_
  intro token htoken label hlabel
  exact Tree.get?_zeros hmem htoken hlabel

variable [DecidableEq ω]

/-- If signs are lost, the tree that is read of the text is worth less. -/
theorem worth_lt (ht : Printable D t) (hlost : ¬ t.Faithful) {ts : List (Token Scalar ω)}
    (hts : ts.map (·.item) = t.lexemes D) (hparse : toPostfix ts = .ok t'.postorder) :
    t'.worth < t.worth := by
  have hworth : t'.worth = total Lexeme.worth (t.lexemes D) := by
    rw [Tree.worth, total_toPostfix weightless_worth hparse, hts]
  -- every sign after a blank is worth one, and the lexemes lack it
  have hslips : t.slips ≠ 0 := fun hzero => hlost (Tree.faithful_of_slips hzero)
  have hle := ht.total_lexemes_le
  omega

/-- If the tree is faithful, what is read of its text has its values. -/
theorem retains_of_faithful [Nonempty σ] {I : Interpretation Scalar ω ε σ}
    {product : List Scalar → Evaluation ε σ Scalar} {P : Scalar → Prop}
    (hmultiplies : Multiplies I product P) (hbuiltin : ∀ b, (I (.builtin b)).Pure)
    (hfunctions : D.PureFunctions I) (ht : Printable D t) (ht' : Printable D t')
    (hreread : t'.unplaced = t.reread.unplaced) {given : Option (Table Scalar)}
    (hproducts : t.ProductsIn I
      (((Reader.integers D).expression (some t)).bindings given) P) :
    Expression.Retains I given ((Reader.integers D).expression (some t))
      ((Reader.integers D).expression (some t')) := by
  have hpure := ht.pure hbuiltin hfunctions
  have hpure' := ht'.pure hbuiltin hfunctions
  have hreads : t.reread.Pure I := by
    rw [← Tree.pure_unplaced, ← hreread, Tree.pure_unplaced]
    exact hpure'
  intro v s s' hrun
  rw [Reader.evaluate_expression _ _ (some t)] at hrun ⊢
  obtain ⟨hvalue, rfl⟩ := hpure.settled.eq_pure hrun
  have hkept := (Tree.keeps_of_printable hmultiplies ht hpure hproducts).alone v hvalue
  rw [← Tree.eval_unplaced_eq_pure hreads, ← hreread, Tree.eval_unplaced_eq_pure hpure'] at hkept
  rw [hkept]
  rfl

/-- In the arithmetic of the library, with pure functions, `e'` has the values of `e`, an
expression over `t`, as long as multiplication is associative on the factors that are
regrouped. -/
def Expression.KeepsValues (D : Dictionary Scalar ω) (t : Tree Scalar ω)
    (e e' : Expression Scalar ω) : Prop :=
  ∀ I : Interpretation Scalar ω Refusal Nat, (∀ b, I (.builtin b) = .greedy (Routine.builtin b)) →
    D.PureFunctions I → ∀ P, Scalar.Associates P → ∀ given, t.ProductsIn I (e.bindings given) P →
      e.Retains I given e'

/-- In an arithmetic of pure operations, with an associative multiplication, the expressions
have different values. -/
def Expression.Differs (e e' : Expression Scalar ω) : Prop :=
  ∃ (I : Interpretation Scalar ω Refusal Nat)
    (product : List Scalar → Evaluation Refusal Nat Scalar),
    (∀ o, (I o).Pure) ∧ Multiplies I product (fun _ => True) ∧
      ∃ given v v', v ≠ v' ∧ e.evaluate I given = pure v ∧ e'.evaluate I given = pure v'

/-- **The text of an expression can be read again**, by the reader that read the expression.
If no factor that is a product of its own begins with a sign, what is read is the tree with
these products taken apart, and it has the same values.  Otherwise it has other values. -/
theorem read_text {D : Dictionary Scalar ω} (hD : D.Plain) {text : String}
    {e : Expression Scalar ω} (h : (Reader.integers D).read text = .ok e) :
    ∃ t s t' e', e.root = some t ∧ e.text = .ok s ∧ (Reader.integers D).read s = .ok e' ∧
      e'.root = some t' ∧
        (t.Faithful → t'.unplaced = t.reread.unplaced ∧ e.KeepsValues D t e') ∧
        (¬ t.Faithful → e.Differs e') := by
  obtain ⟨t, htree, rfl⟩ := Reader.read_eq_ok.1 h
  have ht := printable_of_tree hD htree
  -- the lexemes of a printed tree are a formula, so there is a tree of the text
  obtain ⟨ts, t', hts, hparse, htext⟩ := exists_tree_text hD ht
  have ht' := printable_of_tree hD htext
  refine ⟨t, _, t', _, rfl, ht.text_eq, Reader.read_eq_ok.2 ⟨t', htext, rfl⟩, rfl, ?_, ?_⟩
  · intro hfaithful
    obtain ⟨u, hu, hreread⟩ := tree_text hD ht hfaithful
    -- a text has one tree, so this one is the tree reread
    obtain rfl : t' = u := Except.ok.inj (htext.symm.trans hu)
    refine ⟨hreread, ?_⟩
    intro I hI hfunctions P hP given hproducts
    have hbuiltin : ∀ b, (I (.builtin b)).Pure := by
      intro b
      rw [hI b]
      exact Routine.settled_builtin b
    exact retains_of_faithful (Routine.multiplies hI hP) hbuiltin hfunctions ht ht' hreread
      hproducts
  · intro hlost
    -- with all variables zero, the signs that are lost make the difference
    have hworth := worth_lt ht hlost hts hparse
    refine ⟨tally, _, pure_tally, multiplies_tally, some (Tree.zeros [t, t']), _, _, ?_,
      evaluate_tally (by simp) ht, evaluate_tally (by simp) ht'⟩
    intro heq
    have hsame := Scalar.integer.inj heq
    omega

end

/-! ### Products of products -/

/-- The tree of `2 (3 x)`. -/
def plainFactor : Tree Scalar Routine :=
  .node ⟨.operator .juxtaposition, 2⟩
    [.node ⟨.operand (.integer 2), 0⟩ [],
    .node ⟨.operator .juxtaposition, 5⟩
      [.node ⟨.operand (.integer 3), 3⟩ [], .node ⟨.var "x", 5⟩ []]]

/-- The tokens of `2 (3 x)`. -/
def plainFactorTokens : List (Token Scalar Routine) :=
  [⟨.operand (.integer 2), 0⟩, ⟨.operator .juxtaposition, 2⟩, ⟨.leftParenthesis, 2⟩,
    ⟨.operand (.integer 3), 3⟩, ⟨.operator .juxtaposition, 5⟩, ⟨.var "x", 5⟩,
    ⟨.rightParenthesis, 6⟩]

/-- The tree of `2 (-3 x)`. -/
def signedFactor : Tree Scalar Routine :=
  .node ⟨.operator .juxtaposition, 2⟩
    [.node ⟨.operand (.integer 2), 0⟩ [],
    .node ⟨.operator .juxtaposition, 6⟩
      [.node ⟨.operator .unaryMinus, 3⟩ [.node ⟨.operand (.integer 3), 4⟩ []],
      .node ⟨.var "x", 6⟩ []]]

/-- The tokens of `2 (-3 x)`. -/
def signedFactorTokens : List (Token Scalar Routine) :=
  [⟨.operand (.integer 2), 0⟩, ⟨.operator .juxtaposition, 2⟩, ⟨.leftParenthesis, 2⟩,
    ⟨.operator .unaryMinus, 3⟩, ⟨.operand (.integer 3), 4⟩, ⟨.operator .juxtaposition, 6⟩,
    ⟨.var "x", 6⟩, ⟨.rightParenthesis, 7⟩]

theorem faithful_plainFactor : plainFactor.Faithful := by
  apply Tree.faithful_of_slips
  rfl

theorem not_faithful_signedFactor : ¬ signedFactor.Faithful := by
  intro h
  have hopens := h 2 _ _ (Tree.mem_preorder_node.2 (.inl rfl)) rfl
  cases hopens

/-- Where `x` is an integer, the factors of `2 (3 x)` have exact values. -/
theorem productsIn_plainFactor (n : Int) :
    plainFactor.ProductsIn Routine.interpretation
      (.override .empty (.ofList [("x", .integer n)])) Scalar.IsExact := by
  intro p l r hmem hspaced t ht v hv
  simp [plainFactor, Tree.preorder, Tree.preorders, Operator.juxtaposition] at hmem
  rcases hmem with ⟨-, rfl, rfl⟩ | ⟨-, rfl, rfl⟩
  · have hleaf : ∃ k, v = .integer k := by
      rcases List.mem_cons.1 ht with rfl | ht
      · exact ⟨2, (Evaluation.pure_injective hv).symm⟩
      · rcases List.mem_cons.1 ht with rfl | ht
        · exact ⟨3, (Evaluation.pure_injective hv).symm⟩
        · obtain rfl := List.mem_singleton.1 ht
          exact ⟨n, (Evaluation.pure_injective hv).symm⟩
    obtain ⟨k, rfl⟩ := hleaf
    trivial
  · cases hspaced

theorem read_text_nestedProducts :
    (Dictionary.empty : Dictionary Scalar Routine).Plain ∧
      (∃ e s e', (Reader.integers .empty).read "2 (3 x)" = .ok e ∧ e.text = .ok s ∧
        (Reader.integers .empty).read s = .ok e' ∧
          ∀ n, e.Retains Routine.interpretation (some (.ofList [("x", .integer n)])) e') ∧
      (∃ e s e', (Reader.integers (.empty : Dictionary Scalar Routine)).read "2 (-3 x)" = .ok e ∧
        e.text = .ok s ∧ (Reader.integers .empty).read s = .ok e' ∧ e.Differs e') := by
  have hD : (Dictionary.empty : Dictionary Scalar Routine).Plain := ⟨.empty, fun _ => rfl⟩
  refine ⟨hD, ?_, ?_⟩
  · have htree : (Reader.integers .empty).tree "2 (3 x)" = .ok plainFactor :=
      Reader.tree_eq_ok.2 ⟨plainFactorTokens, plainFactor.postorder, by rfl, by rfl, by rfl⟩
    have hread := Reader.read_eq_ok.2 ⟨plainFactor, htree, rfl⟩
    obtain ⟨t, s, t', e', hroot, htext, hagain, -, hkeeps, -⟩ := read_text hD hread
    obtain rfl := Option.some.inj hroot
    refine ⟨_, s, e', hread, htext, hagain, ?_⟩
    intro n
    obtain ⟨-, hvalues⟩ := hkeeps faithful_plainFactor
    exact hvalues Routine.interpretation (fun _ => rfl) (fun _ _ hf => by cases hf)
      Scalar.IsExact Scalar.associates_exact _ (productsIn_plainFactor n)
  · have htree : (Reader.integers .empty).tree "2 (-3 x)" = .ok signedFactor :=
      Reader.tree_eq_ok.2 ⟨signedFactorTokens, signedFactor.postorder, by rfl, by rfl, by rfl⟩
    have hread := Reader.read_eq_ok.2 ⟨signedFactor, htree, rfl⟩
    obtain ⟨t, s, t', e', hroot, htext, hagain, -, -, hdiffers⟩ := read_text hD hread
    obtain rfl := Option.some.inj hroot
    exact ⟨_, s, e', hread, htext, hagain, hdiffers not_faithful_signedFactor⟩

/-- There is a blank before the sign of the second one, so it is read as a subtraction. -/
example : signedFactor.text plainSpelling = "2 -3 x" := by cbv

end Formula
