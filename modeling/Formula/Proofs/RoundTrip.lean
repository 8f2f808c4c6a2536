/-
Formula/Proofs/RoundTrip.lean

Printing a tree and reading the text again.  The tree that is read is the one that
`reread` describes (`tree_text`); if no factor is a product of its own, this is the tree that
was printed, with a written operator where a blank would not do (`tree_render`).

Main statement: `tree_render`.
-/
import Formula.Proofs.Rereading

namespace Formula

variable {ω : Type}

/-! ### The text of a tree is read -/

theorem plainSpelling_eq (D : Dictionary Scalar ω) : (Reader.integers D).spelling = plainSpelling :=
  rfl

variable [DecidableEq ω]

/-- What is read from the text of a tree, if no blank comes before a sign. -/
theorem tree_text {D : Dictionary Scalar ω} (hD : D.Plain) {t : Tree Scalar ω}
    (h : Printable D t) (hfaithful : t.Faithful) :
    ∃ t', (Reader.integers D).tree (t.text plainSpelling) = .ok t' ∧
      t'.unplaced = t.reread.unplaced := by
  obtain ⟨ts, hts, htokens⟩ := tokens_text hD h
  obtain ⟨K, z, hreads, hz⟩ := (h.rereads hfaithful).whole ts hts
  have hbuild := Tree.ofPostfix_postorder hreads.grown.saturated
  exact ⟨fillAll z K, Reader.tree_eq_ok.2 ⟨ts, _, htokens, hreads.toPostfix, hbuild⟩, hz⟩

/-! ### The tree that is written -/

namespace Tree

mutual

/-- The tree with every implied multiplication that must be written made a written one. -/
def written : Tree Scalar ω → Tree Scalar ω
  | node t cs =>
    if t.item.isJuxtaposition && impliedLabel cs == " * " then
      node ⟨.operator .multiplication, t.position⟩ (writtenAll cs)
    else node t (writtenAll cs)

/-- The trees with their implied multiplications written where they must be. -/
def writtenAll : List (Tree Scalar ω) → List (Tree Scalar ω)
  | [] => []
  | t :: ts => written t :: writtenAll ts

end

theorem writtenAll_eq_map (ts : List (Tree Scalar ω)) : writtenAll ts = ts.map written := by
  induction ts with
  | nil => rfl
  | cons t ts ih => rw [writtenAll, List.map_cons, ih]

/-- No implied multiplication is the right operand of another. -/
def Straight (t : Tree Scalar ω) : Prop :=
  ∀ p l r, node ⟨.operator .juxtaposition, p⟩ [l, r] ∈ t.preorder →
    r.lexeme.isJuxtaposition = false

theorem Straight.child {token : Token Scalar ω} {cs : List (Tree Scalar ω)}
    (h : Straight (node token cs)) {c : Tree Scalar ω} (hc : c ∈ cs) : Straight c :=
  fun p l r hmem => h p l r (mem_preorder_node.2 (.inr ⟨c, hc, hmem⟩))

theorem Straight.faithful {t : Tree Scalar ω} (h : Straight t) : Faithful t := by
  intro p l r hmem hspaced
  rw [isSpaced_of_not_isJuxtaposition (h p l r hmem)] at hspaced
  cases hspaced

/-- Where there is no blank, rereading and writing change the token alike. -/
theorem unplaced_reread_node {t : Token Scalar ω} {cs : List (Tree Scalar ω)}
    (hspaced : (node t cs).isSpaced = false)
    (h : ∀ c ∈ cs, c.reread.unplaced = c.written.unplaced) :
    (node t cs).reread.unplaced = (node t cs).written.unplaced := by
  have hcs : (cs.map reread).map unplaced = (writtenAll cs).map unplaced := by
    rw [writtenAll_eq_map, List.map_map, List.map_map]
    exact List.map_congr_left h
  obtain ⟨l, p⟩ := t
  rw [reread_node hspaced, unplaced_node, hcs, written]
  cases l with
  | operator op =>
    cases hjuxtaposition : op.isJuxtaposition with
    | true =>
      have hlabel : impliedLabel cs ≠ " " := by
        simpa [isSpaced, lexeme, token, children, Lexeme.isJuxtaposition, hjuxtaposition]
          using hspaced
      have hstar := (impliedLabel_eq cs).resolve_left hlabel
      simp [writtenToken, writtenFor, Lexeme.isJuxtaposition, hjuxtaposition, hstar, unplaced_node]
    | false =>
      simp [writtenToken, writtenFor, Lexeme.isJuxtaposition, hjuxtaposition, unplaced_node]
  | _ => simp [writtenToken, Lexeme.isJuxtaposition, unplaced_node]

/-- Without products among the factors, rereading only writes multiplications. -/
theorem Straight.unplaced_reread {D : Dictionary Scalar ω} {t : Tree Scalar ω}
    (hp : Printable D t) (h : Straight t) : t.reread.unplaced = t.written.unplaced := by
  induction t, hp using Printable.induction_spaced with
  | plain token cs hspaced _ ih =>
    refine unplaced_reread_node hspaced ?_
    intro c hc
    obtain ⟨-, ih⟩ := ih c hc
    exact ih (h.child hc)
  | spaced p l r hspaced _ _ ihl ihr =>
    have hl := ihl (h.child (by simp))
    have hr := ihr (h.child (by simp))
    have hright := isSpaced_of_not_isJuxtaposition (h p l r (mem_preorder_node.2 (.inl rfl)))
    have hlabel : impliedLabel [l, r] = " " := by
      rwa [isSpaced_juxtaposition, beq_iff_eq] at hspaced
    rw [reread, readAfter_spaced hspaced, readAfter_some hright, written, hlabel]
    rw [if_neg (by simp), writtenAll_eq_map, unplaced_node, unplaced_node]
    simp only [List.map_cons, List.map_nil, hr]
    rw [← hl]
    rfl

end Tree

/-- **Reading the text of a tree restores it**, if no implied multiplication is the right
operand of another: up to positions it is the tree that was printed, with every implied
multiplication that must be written made a written one. -/
theorem tree_render {D : Dictionary Scalar ω} (hD : D.Plain) {t : Tree Scalar ω}
    (h : Printable D t) (hstraight : t.Straight) :
    ∃ t', (Reader.integers D).tree (t.render (Reader.integers D).spelling) = .ok t' ∧
      t'.unplaced = t.written.unplaced := by
  rw [plainSpelling_eq, Tree.render_eq_text]
  obtain ⟨t', hread, ht'⟩ := tree_text hD h hstraight.faithful
  exact ⟨t', hread, ht'.trans (hstraight.unplaced_reread h)⟩

/-- The tree of `2 * 3 - -x y`, with all multiplications implied. -/
def impliedProducts : Tree Scalar String :=
  .node ⟨.operator .subtraction, 3⟩
    [.node ⟨.operator .juxtaposition, 1⟩
      [.node ⟨.operand (.integer (2 : Nat)), 0⟩ [], .node ⟨.operand (.integer (3 : Nat)), 2⟩ []],
    .node ⟨.operator .juxtaposition, 6⟩
      [.node ⟨.operator .unaryMinus, 4⟩ [.node ⟨.var "x", 5⟩ []], .node ⟨.var "y", 7⟩ []]]

theorem tree_render_impliedProducts :
    (Dictionary.empty : Dictionary Scalar String).Plain ∧ Printable .empty impliedProducts ∧
      impliedProducts.Straight ∧
        ∃ t', (Reader.integers (.empty : Dictionary Scalar String)).tree (impliedProducts.render
            (Reader.integers (.empty : Dictionary Scalar String)).spelling) = .ok t' ∧
          t'.unplaced = impliedProducts.written.unplaced := by
  have hD : (Dictionary.empty : Dictionary Scalar String).Plain := ⟨.empty, fun _ => rfl⟩
  have hfree : ∀ (label k : String) (f : Placed (Function String)),
      (Dictionary.empty : Dictionary Scalar String).function? k = some f →
        ¬ k.toList <+: label.toList := by
    intro label k f hf
    cases hf
  have hprintable : Printable .empty impliedProducts :=
    .between 3 (by simp [Operator.written])
      (.juxtaposed 1 (.number 2 0) (.number 3 2))
      (.juxtaposed 6 (.sign 4 (by simp [Operator.signs]) (.var 5 (by decide) (hfree "x")))
        (.var 7 (by decide) (hfree "y")))
  have hstraight : impliedProducts.Straight := by
    intro p l r hmem
    simp [impliedProducts, Tree.preorder, Tree.preorders, Operator.juxtaposition,
      Operator.subtraction, Operator.unaryMinus] at hmem
    rcases hmem with ⟨-, -, rfl⟩ | ⟨-, -, rfl⟩ <;> rfl
  exact ⟨hD, hprintable, hstraight, tree_render hD hprintable hstraight⟩

end Formula
