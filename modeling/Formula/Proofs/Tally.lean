/-
Formula/Proofs/Tally.lean

An arithmetic that counts signs.  Every sign adds one to the value of its operand, and all
other operations sum up the values of theirs; both multiplications are sums, so they are
associative.  Under this arithmetic a tree is worth what its tokens are worth together
(`eval_tally`), and so is the tree of a text.

In the lexemes of a printed tree, however, a sign after a blank is no sign any more.
`slips` counts these places, and the lexemes are worth that much less than the tree
(`total_lexemes_le`).
-/
import Formula.Proofs.Regrouping
import Formula.Proofs.Totals

namespace Formula

variable {V ω ε σ : Type}

/-! ### Sums of values -/

/-- The integer that an operand is, if it is one. -/
def Scalar.whole : Scalar → Int
  | integer n => n
  | _ => 0

/-- What an operation adds to the sum of its operands: signs add one. -/
def Operation.bonus : Operation ω → Int
  | .builtin .pos | .builtin .neg => 1
  | _ => 0

/-- What a lexeme adds to the value of a tree. -/
def Lexeme.worth : Lexeme Scalar ω → Int
  | .operand v => v.whole
  | .operator op => op.operation.bonus
  | .function f => f.operation.bonus
  | _ => 0

theorem weightless_worth : Weightless (Lexeme.worth : Lexeme Scalar ω → Int) where
  mark _ := rfl
  arguments _ _ := rfl

theorem bonus_nonneg (o : Operation ω) : 0 ≤ o.bonus := by
  unfold Operation.bonus
  split <;> decide

theorem bonus_of_written {op : Operator ω} (h : op ∈ Operator.written) :
    op.operation.bonus = 0 := by
  simp only [Operator.written, List.mem_cons, List.not_mem_nil, or_false] at h
  rcases h with rfl | rfl | rfl | rfl | rfl | rfl <;> rfl

theorem bonus_of_signs {op : Operator ω} (h : op ∈ Operator.signs) : op.operation.bonus = 1 := by
  simp only [Operator.signs, List.mem_cons, List.not_mem_nil, or_false] at h
  rcases h with rfl | rfl <;> rfl

namespace Tree

/-- What the tokens of a tree are worth. -/
def worth (t : Tree Scalar ω) : Int := total Lexeme.worth (t.postorder.map (·.item))

theorem total_postorders (cs : List (Tree Scalar ω)) :
    total Lexeme.worth ((postorders cs).map (·.item)) = total worth cs := by
  induction cs with
  | nil => rfl
  | cons c cs ih =>
    rw [postorders, List.map_append, total_append, ih]
    rfl

theorem worth_node (token : Token Scalar ω) (cs : List (Tree Scalar ω)) :
    (node token cs).worth = token.item.worth + total worth cs := by
  rw [worth, postorder, List.map_append, total_append, total_postorders, Int.add_comm]
  show _ + 0 + _ = _
  rw [Int.add_zero]

theorem worth_pair (token : Token Scalar ω) (l r : Tree Scalar ω) :
    (node token [l, r]).worth = token.item.worth + (l.worth + r.worth) := by
  rw [worth_node, total_cons, total_cons, total_nil, Int.add_zero]

end Tree

/-! ### The arithmetic -/

/-- Signs add one to their operand, and all other operations sum up. -/
def tally : Interpretation Scalar ω ε σ := fun o =>
  .greedy fun vs => pure (.integer (o.bonus + total Scalar.whole vs))

theorem pure_tally (o : Operation ω) : (tally o : Meaning Scalar ω ε σ).Pure :=
  fun _ => Evaluation.settled_pure _

/-- Multiplication is a sum, so it is associative. -/
theorem multiplies_tally :
    Multiplies (tally : Interpretation Scalar ω ε σ)
      (fun vs => pure (.integer (0 + total Scalar.whole vs))) fun _ => True where
  implied := rfl
  written := rfl
  closed _ _ _ _ := ⟨_, trivial, rfl⟩
  assoc x y z _ _ _ := by
    rw [pure_bind, pure_bind]
    have hsum : 0 + total Scalar.whole [.integer (0 + total Scalar.whole [x, y]), z] =
        0 + total Scalar.whole [x, .integer (0 + total Scalar.whole [y, z])] := by
      simp only [total_cons, total_nil, Scalar.whole]
      omega
    rw [hsum]

namespace Tree

variable {bindings : Table Scalar}

/-- A node is worth what its children are, and what its operation adds. -/
theorem eval_tally_node {token : Token Scalar ω} {cs : List (Tree Scalar ω)} {o : Operation ω}
    (ho : token.item.operation? = some o) (hworth : token.item.worth = o.bonus)
    (hcomplete : (node token cs).isComplete = true)
    (hcs : ∀ c ∈ cs, eval (tally : Interpretation Scalar ω ε σ) c bindings =
      pure (.integer c.worth)) :
    eval (tally : Interpretation Scalar ω ε σ) (node token cs) bindings =
      pure (.integer (node token cs).worth) := by
  -- the values of the children add up, whatever the operation is
  have hop : token.item.operation?.map (tally : Interpretation Scalar ω ε σ) =
      some (.greedy fun vs => pure (.integer (o.bonus + total Scalar.whole vs))) := by
    rw [ho]
    rfl
  have hvalues : evals (tally : Interpretation Scalar ω ε σ) cs bindings =
      pure (cs.map fun c => Scalar.integer c.worth) := by
    apply evals_of_map_eval
    rw [List.map_map]
    exact List.map_congr_left hcs
  rw [eval_greedy hop, if_pos hcomplete, hvalues, pure_bind, worth_node, hworth, total_map]
  rfl

/-- All variables of the tree are zero. -/
def VarsZero (bindings : Table Scalar) (t : Tree Scalar ω) : Prop :=
  ∀ token ∈ t.postorder, ∀ label, token.item = .var label →
    bindings.get? label = some (.integer 0)

theorem VarsZero.child {token : Token Scalar ω} {cs : List (Tree Scalar ω)}
    (h : VarsZero bindings (node token cs)) {c : Tree Scalar ω} (hc : c ∈ cs) :
    VarsZero bindings c :=
  fun u hu => h u (mem_postorder_node.2 (.inr ⟨c, hc, hu⟩))

/-- Where all variables are zero, a tree has the value that it is worth. -/
theorem eval_tally {D : Dictionary Scalar ω} {t : Tree Scalar ω} (h : Printable D t)
    (hzero : VarsZero bindings t) :
    eval (tally : Interpretation Scalar ω ε σ) t bindings = pure (.integer t.worth) := by
  induction h with
  | number n p => exact eval_leaf rfl
  | @var label p _ _ =>
    have hlookup := hzero _ (List.mem_singleton_self _) label rfl
    rw [eval_leaf rfl]
    simp only [leafValue, Lexeme.label, hlookup]
    rfl
  | @call f cs p _ _ _ ih =>
    refine eval_tally_node (o := f.item.operation) rfl rfl ?_ ?_
    · simp [isComplete, lexeme, token, children, Function.arity]
    · intro c hc
      exact ih c hc (hzero.child hc)
  | @sign op c p hop _ ih =>
    have hbinary := Operator.isBinary_of_isPrefix (isPrefix_of_signs hop)
    have harity := Operator.arity_of_not_isBinary hbinary
    refine eval_tally_node (o := op.operation) rfl rfl ?_ ?_
    · exact isComplete_of_arity (by simp [Lexeme.arity, harity])
    · intro d hd
      obtain rfl := List.mem_singleton.1 hd
      exact ih (hzero.child hd)
  | @juxtaposed l r p _ _ ihl ihr =>
    refine eval_tally_node (o := .builtin .juxtapose) rfl rfl rfl ?_
    simp only [List.mem_cons, List.not_mem_nil, or_false, forall_eq_or_imp, forall_eq]
    exact ⟨ihl (hzero.child (by simp)), ihr (hzero.child (by simp))⟩
  | @between op l r p hop _ _ ihl ihr =>
    have harity := Operator.arity_of_isBinary (isBinary_of_written hop)
    refine eval_tally_node (o := op.operation) rfl rfl ?_ ?_
    · exact isComplete_of_arity (by simp [Lexeme.arity, harity])
    · simp only [List.mem_cons, List.not_mem_nil, or_false, forall_eq_or_imp, forall_eq]
      exact ⟨ihl (hzero.child (by simp)), ihr (hzero.child (by simp))⟩

end Tree

/-! ### What the lexemes of a printed tree are worth -/

theorem total_enclosed (b : Bool) (ls : List (Lexeme Scalar ω)) :
    total Lexeme.worth (enclosed b ls) = total Lexeme.worth ls := by
  cases b with
  | false => rfl
  | true =>
    rw [enclosed, if_pos rfl, total_cons, total_append, total_cons, total_nil]
    show 0 + (_ + (0 + 0)) = _
    omega

theorem total_joined_le (ls : List (Lexeme Scalar ω)) :
    total Lexeme.worth (joined ls) ≤ total Lexeme.worth ls := by
  have hput : total Lexeme.worth (.operator .juxtaposition :: ls) = total Lexeme.worth ls := by
    rw [total_cons]
    exact Int.zero_add _
  cases ls with
  | nil => exact Int.le_of_eq hput
  | cons l ls =>
    cases l with
    | operator op =>
      have hzero := bonus_of_written (Operator.afterOperand_mem op)
      have hnonneg := bonus_nonneg op.operation
      rw [joined, total_cons, total_cons, Lexeme.worth, Lexeme.worth, hzero]
      omega
    | _ => exact Int.le_of_eq hput

/-- A sign after an operand is no sign. -/
theorem total_joined_sign {op : Operator ω} (h : op ∈ Operator.signs)
    (ls : List (Lexeme Scalar ω)) : total Lexeme.worth (joined (.operator op :: ls)) + 1 =
      total Lexeme.worth (.operator op :: ls) := by
  rw [joined, total_cons, total_cons, Lexeme.worth, Lexeme.worth, bonus_of_signs h,
    bonus_of_written (Operator.afterOperand_mem op)]
  omega

theorem total_listed (lss : List (List (Lexeme Scalar ω))) :
    total Lexeme.worth (listed lss) = total (total Lexeme.worth) lss := by
  cases lss with
  | nil => rfl
  | cons ls lss =>
    rw [listed, total_append, total_cons]
    congr 1
    induction lss with
    | nil => rfl
    | cons ks lss ih =>
      rw [List.flatMap_cons, total_append, total_cons, ih, total_cons]
      show 0 + _ + _ = _
      omega

/-! ### Signs that are lost -/

namespace Tree

variable [DecidableEq ω]

/-- Does a sign come after the blank of the product `t` of `cs`? -/
def slipsAt (t : Lexeme Scalar ω) (cs : List (Tree Scalar ω)) : Bool :=
  match cs with
  | [_, r] => t.isJuxtaposition && r.isSpaced && r.opensWithSign
  | _ => false

mutual

/-- How many signs come after a blank. -/
def slips : Tree Scalar ω → Nat
  | node t cs => (slipsAt t.item cs).toNat + slipsAll cs

/-- How many signs come after a blank in several trees. -/
def slipsAll : List (Tree Scalar ω) → Nat
  | [] => 0
  | t :: ts => slips t + slipsAll ts

end

theorem slipsAll_eq_zero {ts : List (Tree Scalar ω)} :
    slipsAll ts = 0 ↔ ∀ t ∈ ts, t.slips = 0 := by
  induction ts with
  | nil => simp [slipsAll]
  | cons t ts ih => simp [slipsAll, Nat.add_eq_zero_iff, ih]

/-- If no sign comes after a blank, the tree is faithful. -/
theorem faithful_of_slips {t : Tree Scalar ω} (h : t.slips = 0) : t.Faithful := by
  induction t using Tree.induction with
  | step token cs ih =>
    rw [slips, Nat.add_eq_zero_iff, slipsAll_eq_zero] at h
    intro p l r hmem hspaced
    rcases mem_preorder_node.1 hmem with heq | ⟨c, hc, hmem⟩
    · obtain ⟨rfl, rfl⟩ := node.inj heq
      have hslips := h.1
      simp only [slipsAt, Lexeme.isJuxtaposition, Operator.isJuxtaposition, beq_self_eq_true,
        hspaced, Bool.true_and] at hslips
      cases hopens : r.opensWithSign with
      | false => rfl
      | true =>
        rw [hopens] at hslips
        cases hslips
    · exact ih c hc (h.2 c hc) p l r hmem hspaced

end Tree

/-! ### Printed trees -/

section

variable [DecidableEq ω] {D : Dictionary Scalar ω}

/-- A factor that begins with a sign is not put in parentheses. -/
theorem Tree.needsParentheses_of_opensWithSign {t : Tree Scalar ω}
    (h : t.opensWithSign = true) : needsParentheses .juxtaposition t = false := by
  cases hspaced : t.isSpaced with
  | true => exact needsParentheses_of_isSpaced hspaced
  | false =>
    obtain ⟨⟨l, p⟩, cs⟩ := t
    rw [opensWithSign, hspaced, Bool.false_and, Bool.or_false] at h
    cases l with
    | operator op =>
      rw [needsParentheses_sign _ (Operator.isSign_iff.1 h)]
      rfl
    | _ => cases h

theorem Printable.lexemes_of_opensWithSign {t : Tree Scalar ω} (h : Printable D t)
    (hopens : t.opensWithSign = true) :
    ∃ op ∈ Operator.signs, ∃ ls, t.lexemes D = .operator op :: ls := by
  induction t, h using Printable.induction_spaced with
  | plain token cs hspaced h _ =>
    rw [Tree.opensWithSign, hspaced, Bool.false_and, Bool.or_false] at hopens
    cases h with
    | sign p hop _ => exact ⟨_, hop, _, Tree.lexemes_sign _ p _⟩
    | juxtaposed p _ _ =>
      rw [Lexeme.isSign, isSign_of_isBinary rfl] at hopens
      cases hopens
    | between p hop _ _ =>
      rw [Lexeme.isSign, isSign_of_isBinary (isBinary_of_written hop)] at hopens
      cases hopens
    | _ => cases hopens
  | spaced p l r hspaced _ _ ihl _ =>
    -- a left factor that begins with a sign is not put in parentheses, so its sign comes first
    have hl : l.opensWithSign = true := by
      rw [Tree.opensWithSign, hspaced, Bool.true_and, Tree.headOpensWithSign] at hopens
      rwa [Lexeme.isSign, isSign_of_isBinary rfl, Bool.false_or] at hopens
    obtain ⟨op, hop, ls, hls⟩ := ihl hl
    rw [Tree.lexemes_spaced hspaced, Tree.needsParentheses_of_opensWithSign hl, enclosed, hls]
    exact ⟨op, hop, _, rfl⟩

/-- A product in front of a product is written with a blank. -/
theorem Tree.isSpaced_of_right {l r : Tree Scalar ω} {p : Int} (h : r.isSpaced = true) :
    (node ⟨.operator .juxtaposition, p⟩ [l, r]).isSpaced = true := by
  rw [isSpaced, Bool.and_eq_true] at h
  have hr : r.lexeme = .operator .juxtaposition := by
    cases hl : r.lexeme with
    | operator op => simpa [hl, Lexeme.isJuxtaposition, Operator.isJuxtaposition] using h.1
    | _ => simp [hl, Lexeme.isJuxtaposition] at h
  have hlabel : impliedLabel [l, r] = " " := by
    have hsign : (Operator.juxtaposition : Operator ω).isSign = false := isSign_of_isBinary rfl
    rw [impliedLabel, hr]
    simp [Lexeme.isOperand, Lexeme.isSign, hsign]
  rw [isSpaced_juxtaposition, hlabel]
  rfl

namespace Tree

theorem slips_juxtaposed (p : Int) (l r : Tree Scalar ω) :
    (node ⟨.operator .juxtaposition, p⟩ [l, r]).slips =
      (r.isSpaced && r.opensWithSign).toNat + (l.slips + r.slips) := by
  simp [slips, slipsAt, slipsAll, Lexeme.isJuxtaposition, Operator.isJuxtaposition]

/-- Only at implied multiplications signs come after a blank. -/
theorem slips_of_not_isJuxtaposition {token : Token Scalar ω} {cs : List (Tree Scalar ω)}
    (h : token.item.isJuxtaposition = false) : (node token cs).slips = slipsAll cs := by
  rw [slips, slipsAt.eq_def, h]
  split <;> exact Nat.zero_add _

theorem total_lexemesAll_le {cs : List (Tree Scalar ω)}
    (h : ∀ c ∈ cs, total Lexeme.worth (c.lexemes D) + c.slips ≤ c.worth) :
    total (total Lexeme.worth) (cs.map (lexemes D)) + slipsAll cs ≤ total worth cs := by
  induction cs with
  | nil => exact Int.le_refl 0
  | cons c cs ih =>
    have hc := h c (List.mem_cons_self ..)
    have hcs := ih fun d hd => h d (List.mem_cons_of_mem _ hd)
    rw [List.map_cons, total_cons, total_cons, slipsAll]
    omega

end Tree

/-- After a blank, a factor that begins with a sign lacks this sign. -/
theorem Printable.total_joined_le {t : Tree Scalar ω} (h : Printable D t) :
    total Lexeme.worth (joined (enclosed (Tree.needsParentheses .juxtaposition t) (t.lexemes D))) +
        (t.isSpaced && t.opensWithSign).toNat ≤ total Lexeme.worth (t.lexemes D) := by
  cases hopens : t.opensWithSign with
  | true =>
    obtain ⟨op, hop, ls, hls⟩ := h.lexemes_of_opensWithSign hopens
    have hlost := total_joined_sign hop ls
    have hle : (t.isSpaced && true).toNat ≤ 1 := Bool.toNat_le _
    rw [Tree.needsParentheses_of_opensWithSign hopens, enclosed, if_neg Bool.false_ne_true, hls]
    omega
  | false =>
    have hle := Formula.total_joined_le
      (enclosed (Tree.needsParentheses .juxtaposition t) (t.lexemes D))
    rw [total_enclosed] at hle
    rw [Bool.and_false, Bool.toNat_false]
    omega

/-- The lexemes of a printed tree lack the signs that come after a blank. -/
theorem Printable.total_lexemes_le {t : Tree Scalar ω} (h : Printable D t) :
    total Lexeme.worth (t.lexemes D) + t.slips ≤ t.worth := by
  induction h with
  | number n p => exact Int.le_refl _
  | var p _ _ => exact Int.le_refl _
  | @call f cs p hf _ _ ih =>
    have hcs := Tree.total_lexemesAll_le ih
    have hslips : (callOf f.item p cs).slips = Tree.slipsAll cs :=
      Tree.slips_of_not_isJuxtaposition rfl
    have hworth : (callOf f.item p cs).worth = f.item.operation.bonus + total Tree.worth cs := by
      rw [callOf, Tree.worth_node]
      rfl
    rw [Tree.lexemes_callOf hf, hslips, hworth, total_cons, total_cons, total_append, total_listed]
    show f.item.operation.bonus + (0 + (_ + 0)) + _ ≤ _
    omega
  | @sign op c p hop _ ih =>
    have hslips : (Tree.node ⟨.operator op, p⟩ [c]).slips = c.slips :=
      Tree.slips_of_not_isJuxtaposition (isJuxtaposition_of_isPrefix (isPrefix_of_signs hop))
    rw [Tree.lexemes_sign, hslips, Tree.worth_node, total_cons, total_enclosed, total_cons,
      total_nil]
    dsimp only
    omega
  | @juxtaposed l r p _ hr ihl ihr =>
    have hzero : Lexeme.worth (.operator .juxtaposition : Lexeme Scalar ω) = 0 := rfl
    rw [Tree.worth_pair, Tree.slips_juxtaposed, hzero]
    cases hspaced : (Tree.node ⟨.operator .juxtaposition, p⟩ [l, r]).isSpaced with
    | true =>
      have hle := hr.total_joined_le
      rw [Tree.lexemes_spaced hspaced, total_append, total_enclosed]
      omega
    | false =>
      -- a product on the right would have made this one spaced, too
      have hright : r.isSpaced = false := by
        cases hright : r.isSpaced with
        | false => rfl
        | true =>
          rw [Tree.isSpaced_of_right hright] at hspaced
          cases hspaced
      have hmark : Lexeme.worth (.operator .multiplication : Lexeme Scalar ω) = 0 := rfl
      rw [Tree.lexemes_between hspaced, Tree.writtenFor_juxtaposition, total_append, total_cons,
        total_enclosed, total_enclosed, hmark, hright, Bool.false_and, Bool.toNat_false]
      omega
  | @between op l r p hop _ _ ihl ihr =>
    have hjuxtaposition := isJuxtaposition_of_written hop
    have hslips : (Tree.node ⟨.operator op, p⟩ [l, r]).slips = l.slips + r.slips :=
      Tree.slips_of_not_isJuxtaposition hjuxtaposition
    rw [Tree.lexemes_between (Tree.isSpaced_of_not_isJuxtaposition hjuxtaposition),
      Tree.writtenFor_of_not_isJuxtaposition hjuxtaposition, hslips, Tree.worth_pair, total_append,
      total_cons, total_enclosed, total_enclosed]
    dsimp only
    omega

end

end Formula
