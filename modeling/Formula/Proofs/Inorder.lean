/-
Formula/Proofs/Inorder.lean

Trees read from left to right.  An operator that stands before its operand and a function
come before everything under them, and any other operator comes after its first operand.

In a list of holes, an operator *leads* if it comes before the operand that is missing, as
all do but those that stand after it.  Where all lead, the tree that fills the holes reads as
the operators read from the outside, with what they have of operands, and then as the operand
(`inorder_fillAll`).

What is under a token stays there when the tree grows at its last operand (`Widens`).
-/
import Formula.Proofs.Hole

namespace Formula

variable {V ω : Type}

/-! ### Reading a tree -/

/-- Does the lexeme come after its first operand? -/
def Lexeme.followsOperand : Lexeme V ω → Bool
  | operator op => !op.isPrefix
  | _ => false

namespace Tree

mutual

/-- The tokens from left to right. -/
def inorder : Tree V ω → List (Token V ω)
  | node t [] => [t]
  | node t (c :: cs) =>
    if t.item.followsOperand then inorder c ++ t :: inorders cs
    else t :: (inorder c ++ inorders cs)

/-- The tokens of several trees. -/
def inorders : List (Tree V ω) → List (Token V ω)
  | [] => []
  | t :: ts => inorder t ++ inorders ts

end

section

variable {root a b : Token V ω} {t x : Tree V ω} {cs ts us : List (Tree V ω)}

theorem inorders_append : inorders (ts ++ us) = inorders ts ++ inorders us := by
  induction ts with
  | nil => rfl
  | cons t ts ih => simp [inorders, ih]

theorem mem_inorders : a ∈ inorders ts ↔ ∃ t ∈ ts, a ∈ t.inorder := by
  induction ts with
  | nil => simp [inorders]
  | cons t ts ih => simp [inorders, ih]

/-- A token that does not follow an operand comes first. -/
theorem inorder_of_leading (h : root.item.followsOperand = false) :
    (node root cs).inorder = root :: inorders cs := by
  cases cs with
  | nil => rw [inorder, inorders]
  | cons c cs => rw [inorder, h, if_neg Bool.false_ne_true, inorders]

/-- A token that follows an operand comes after the first one. -/
theorem inorder_of_following (h : root.item.followsOperand = true) :
    (node root (x :: cs)).inorder = x.inorder ++ root :: inorders cs := by
  rw [inorder, if_pos h]

theorem mem_inorder_node : a ∈ (node root cs).inorder ↔ a = root ∨ a ∈ inorders cs := by
  cases cs with
  | nil => simp [inorder, inorders]
  | cons c cs =>
    rw [inorder]
    split <;> simp [inorders, or_left_comm]

theorem sublist_inorders (h : x ∈ ts) : x.inorder.Sublist (inorders ts) := by
  induction ts with
  | nil => cases h
  | cons t ts ih =>
    rw [inorders]
    rcases List.mem_cons.1 h with rfl | h
    · exact List.sublist_append_left _ _
    · exact (ih h).trans (List.sublist_append_right _ _)

theorem inorders_sublist_inorder : (inorders cs).Sublist (node root cs).inorder := by
  cases cs with
  | nil => exact List.nil_sublist _
  | cons c cs =>
    rw [inorder, inorders]
    split
    · exact (List.Sublist.refl _).append (List.sublist_cons_self _ _)
    · exact List.sublist_cons_self _ _

/-- A subtree reads the same within the tree. -/
theorem inorder_sublist_of_mem_preorder (h : x ∈ t.preorder) : x.inorder.Sublist t.inorder := by
  induction t using Tree.induction with
  | step root cs ih =>
    rcases mem_preorder_node.1 h with rfl | ⟨c, hc, hx⟩
    · exact List.Sublist.refl _
    · exact ((ih c hc hx).trans (sublist_inorders hc)).trans inorders_sublist_inorder

/-! ### Tokens under a token -/

/-- Somewhere in the tree, `b` stands under `a`. -/
def Under (t : Tree V ω) (a b : Token V ω) : Prop :=
  ∃ s ∈ t.preorder, s.token = a ∧ b ∈ inorders s.children

theorem under_node :
    (node root cs).Under a b ↔ root = a ∧ b ∈ inorders cs ∨ ∃ c ∈ cs, c.Under a b := by
  constructor
  · rintro ⟨s, hs, hroot, hb⟩
    rcases mem_preorder_node.1 hs with rfl | ⟨c, hc, hs⟩
    · exact .inl ⟨hroot, hb⟩
    · exact .inr ⟨c, hc, s, hs, hroot, hb⟩
  · rintro (⟨hroot, hb⟩ | ⟨c, hc, s, hs, hroot, hb⟩)
    · exact ⟨_, mem_preorder_node.2 (.inl rfl), hroot, hb⟩
    · exact ⟨s, mem_preorder_node.2 (.inr ⟨c, hc, hs⟩), hroot, hb⟩

/-- What is under an operator that stands after its operand comes before it. -/
theorem Saturated.sublist_of_under (h : t.Saturated) {op : Operator ω} {p : Int}
    (hop : op.isPostfix = true) (hunder : t.Under ⟨.operator op, p⟩ b) :
    [b, ⟨.operator op, p⟩].Sublist t.inorder := by
  obtain ⟨⟨root, cs⟩, hs, hroot, hb⟩ := hunder
  obtain rfl : root = ⟨.operator op, p⟩ := hroot
  have hlength : (cs.length : Int) = op.arity := h _ hs
  rw [Operator.arity_of_not_isBinary (Operator.isBinary_of_isPostfix hop)] at hlength
  obtain ⟨x, rfl⟩ := List.length_eq_one_iff.1 (Int.ofNat.inj hlength)
  refine List.Sublist.trans ?_ (inorder_sublist_of_mem_preorder hs)
  rw [inorder_of_following (by rw [Lexeme.followsOperand, Operator.isPrefix_of_isPostfix hop]; rfl)]
  have hx : b ∈ x.inorder := by simpa [children, inorders] using hb
  exact (List.singleton_sublist.2 hx).append (List.Sublist.refl _)

end

/-! ### Trees that grow -/

/-- The tree `w` has all tokens of `z`, and under the same tokens. -/
structure Widens (z w : Tree V ω) : Prop where
  mem : ∀ a ∈ z.inorder, a ∈ w.inorder
  under : ∀ {a b}, z.Under a b → w.Under a b

/-- A tree is widened when it becomes the first operand of a token. -/
theorem widens_node (z : Tree V ω) (root : Token V ω) (cs : List (Tree V ω)) :
    Widens z (node root (z :: cs)) where
  mem _ h := mem_inorder_node.2 (.inr (mem_inorders.2 ⟨z, List.mem_cons_self .., h⟩))
  under h := under_node.2 (.inr ⟨z, List.mem_cons_self .., h⟩)

/-- A tree is widened at its last operand. -/
theorem Widens.node {z w : Tree V ω} (h : Widens z w) (root : Token V ω) (cs : List (Tree V ω)) :
    Widens (.node root (cs ++ [z])) (.node root (cs ++ [w])) := by
  have hmem : ∀ a ∈ inorders (cs ++ [z]), a ∈ inorders (cs ++ [w]) := by
    intro a ha
    rw [inorders_append, List.mem_append] at ha ⊢
    refine ha.imp_right fun ha => ?_
    obtain ⟨_, hz, ha⟩ := mem_inorders.1 ha
    rw [List.mem_singleton.1 hz] at ha
    exact mem_inorders.2 ⟨w, List.mem_singleton_self _, h.mem a ha⟩
  refine ⟨?_, ?_⟩
  · intro a ha
    exact mem_inorder_node.2 ((mem_inorder_node.1 ha).imp_right (hmem a))
  · intro a b hunder
    rw [under_node] at hunder ⊢
    rcases hunder with ⟨hroot, hb⟩ | ⟨c, hc, hunder⟩
    · exact .inl ⟨hroot, hmem b hb⟩
    · right
      rcases List.mem_append.1 hc with hc | hc
      · exact ⟨c, List.mem_append_left _ hc, hunder⟩
      · rw [List.mem_singleton.1 hc] at hunder
        exact ⟨w, List.mem_append_right _ (List.mem_singleton_self _), h.under hunder⟩

end Tree

/-! ### Reading holes -/

namespace Hole

/-- The tokens before the operand that is missing. -/
def ahead : Hole V ω → List (Token V ω)
  | before op p => [⟨.operator op, p⟩]
  | between left op p => left.inorder ++ [⟨.operator op, p⟩]
  | after _ _ => []

/-- The operator comes before the operand that is missing. -/
def Leads : Hole V ω → Prop
  | before op _ => op.isPrefix = true
  | between _ op _ => op.isPrefix = false
  | after _ _ => False

theorem Leads.inorder_fill {F : Hole V ω} (h : F.Leads) (x : Tree V ω) :
    (F.fill x).inorder = F.ahead ++ x.inorder := by
  cases F with
  | before op p =>
    rw [fill, Tree.inorder_of_leading (by rw [Lexeme.followsOperand, h]; rfl)]
    simp [ahead, Tree.inorders]
  | between left op p =>
    rw [fill, Tree.inorder_of_following (by rw [Lexeme.followsOperand, h]; rfl)]
    simp [ahead, Tree.inorders]
  | after op p => exact h.elim

theorem widens_fill {z w : Tree V ω} (h : z.Widens w) (F : Hole V ω) :
    (F.fill z).Widens (F.fill w) := by
  cases F with
  | before op p | after op p => exact h.node _ []
  | between left op p => exact h.node _ [left]

end Hole

/-- The tokens of all holes before the operand that is missing in the innermost one. -/
def ahead : List (Hole V ω) → List (Token V ω)
  | [] => []
  | F :: K => ahead K ++ F.ahead

section

variable {K : List (Hole V ω)} {c : Operator ω} {x z w : Tree V ω}

theorem inorder_fillAll (hK : ∀ F ∈ K, F.Leads) : (fillAll x K).inorder = ahead K ++ x.inorder := by
  induction K generalizing x with
  | nil => rfl
  | cons F K ih =>
    obtain ⟨hF, hK⟩ := List.forall_mem_cons.1 hK
    rw [fillAll, ih hK, hF.inorder_fill, ahead, List.append_assoc]

theorem widens_fillAll (h : z.Widens w) (K : List (Hole V ω)) :
    (fillAll z K).Widens (fillAll w K) := by
  induction K generalizing z w with
  | nil => exact h
  | cons F K ih => exact ih (F.widens_fill h)

theorem under_fillAll {a b : Token V ω} (h : x.Under a b) (K : List (Hole V ω)) :
    (fillAll x K).Under a b := by
  induction K generalizing x with
  | nil => exact h
  | cons F K ih =>
    refine ih ?_
    cases F <;> exact Tree.under_node.2 (.inr ⟨x, by simp, h⟩)

/-- What fills the hole of an operator is under it. -/
theorem under_fillAll_after {a : Token V ω} (q : Operator ω) (p : Int) (K : List (Hole V ω))
    (h : a ∈ x.inorder) : (fillAll x (.after q p :: K)).Under ⟨.operator q, p⟩ a :=
  under_fillAll (Tree.under_node.2
    (.inl ⟨rfl, Tree.mem_inorders.2 ⟨x, List.mem_singleton_self _, h⟩⟩)) K

/-- What is under a token stays there when the operand that is left becomes the first operand
of a token. -/
theorem under_fillAll_popHoles {a b : Token V ω} (h : (fillAll x K).Under a b) (c : Operator ω)
    (root : Token V ω) (cs : List (Tree V ω)) :
    (fillAll (.node root ((popHoles c x K).1 :: cs)) (popHoles c x K).2).Under a b := by
  rw [← fillAll_popHoles (c := c)] at h
  exact (widens_fillAll (Tree.widens_node _ root cs) _).under h

end

end Formula
