/-
Formula/Tree/Basic.lean

Expression trees: a token over the trees of its operands, in order.  A tree may
have too few or too many children at a node; `isComplete` says that the number is
right, and the modules that read trees say what they do where it is not.

`postorder` lists the tokens of a tree, children first.  It is the inverse of
building a tree from a postfix list (`Formula.Tree.OfPostfix`).
-/
import Formula.Token.Basic

namespace Formula

/-- A token over the trees of its operands. -/
inductive Tree (V ω : Type) where
  | node (token : Token V ω) (children : List (Tree V ω))

namespace Tree

variable {V ω : Type}

/-- The token at the root. -/
def token : Tree V ω → Token V ω
  | node t _ => t

/-- What the token at the root says. -/
def lexeme (t : Tree V ω) : Lexeme V ω := t.token.item

/-- The trees below the root, in order. -/
def children : Tree V ω → List (Tree V ω)
  | node _ cs => cs

/-- How many children the token at the root asks for. -/
def arity (t : Tree V ω) : Int := t.lexeme.arity

/-- Does the root have the children that its token asks for?  A call of a function
that takes any number is complete as it is, as long as its arguments have not been
counted. -/
def isComplete (t : Tree V ω) : Bool :=
  match t.lexeme with
  | .function f => (f.isVariadic && f.arguments.isNone) || f.arity == t.children.length
  | l => l.arity == t.children.length

/-! ### Recursion over a tree and over lists of trees -/

mutual

/-- The number of tokens. -/
def size : Tree V ω → Nat
  | node _ cs => 1 + sizes cs

/-- The number of tokens of several trees. -/
def sizes : List (Tree V ω) → Nat
  | [] => 0
  | t :: ts => size t + sizes ts

end

mutual

/-- The tokens, children before their parent and from left to right. -/
def postorder : Tree V ω → List (Token V ω)
  | node t cs => postorders cs ++ [t]

/-- The tokens of several trees. -/
def postorders : List (Tree V ω) → List (Token V ω)
  | [] => []
  | t :: ts => postorder t ++ postorders ts

end

mutual

/-- The subtrees, parents before their children and from left to right. -/
def preorder : Tree V ω → List (Tree V ω)
  | t@(node _ cs) => t :: preorders cs

/-- The subtrees of several trees. -/
def preorders : List (Tree V ω) → List (Tree V ω)
  | [] => []
  | t :: ts => preorder t ++ preorders ts

end

/-! ### Small facts -/

theorem size_pos (t : Tree V ω) : 0 < t.size := by
  obtain ⟨t, cs⟩ := t
  simp only [size]
  omega

theorem size_le_sizes {t : Tree V ω} {ts : List (Tree V ω)} (h : t ∈ ts) :
    t.size ≤ sizes ts := by
  induction ts with
  | nil => cases h
  | cons u us ih =>
    simp only [sizes]
    rcases List.mem_cons.1 h with rfl | h
    · exact Nat.le_add_right _ _
    · exact Nat.le_trans (ih h) (Nat.le_add_left _ _)

theorem size_lt_of_mem (token : Token V ω) {t : Tree V ω} {ts : List (Tree V ω)}
    (h : t ∈ ts) : t.size < (node token ts).size := by
  have := size_le_sizes h
  simp only [size]
  omega

/-- Induction over a tree: a property passes from all children to their parent. -/
@[elab_as_elim]
theorem induction {P : Tree V ω → Prop}
    (step : ∀ token children, (∀ c ∈ children, P c) → P (node token children)) :
    ∀ t, P t
  | node token children => step token children fun c h =>
      have := size_lt_of_mem token h
      induction step c
termination_by t => t.size

theorem mem_preorders {s : Tree V ω} {ts : List (Tree V ω)} :
    s ∈ preorders ts ↔ ∃ t ∈ ts, s ∈ t.preorder := by
  induction ts with
  | nil => simp [preorders]
  | cons t ts ih => simp [preorders, ih]

theorem mem_preorder_node {s : Tree V ω} {token : Token V ω} {cs : List (Tree V ω)} :
    s ∈ (node token cs).preorder ↔ s = node token cs ∨ ∃ c ∈ cs, s ∈ c.preorder := by
  simp [preorder, mem_preorders]

/-- What holds of all subtrees holds of the tree itself and of all subtrees of its children. -/
theorem forall_mem_preorder_node {P : Tree V ω → Prop} {token : Token V ω}
    {cs : List (Tree V ω)} :
    (∀ s ∈ (node token cs).preorder, P s) ↔
      P (node token cs) ∧ ∀ c ∈ cs, ∀ s ∈ c.preorder, P s := by
  constructor
  · intro h
    refine ⟨h _ (mem_preorder_node.2 (.inl rfl)), ?_⟩
    intro c hc s hs
    exact h s (mem_preorder_node.2 (.inr ⟨c, hc, hs⟩))
  · rintro ⟨hroot, hcs⟩ s hs
    rcases mem_preorder_node.1 hs with rfl | ⟨c, hc, hs⟩
    · exact hroot
    · exact hcs c hc s hs

theorem mem_postorders {token : Token V ω} {ts : List (Tree V ω)} :
    token ∈ postorders ts ↔ ∃ t ∈ ts, token ∈ t.postorder := by
  induction ts with
  | nil => simp [postorders]
  | cons t ts ih => simp [postorders, ih]

theorem postorders_append (ts us : List (Tree V ω)) :
    postorders (ts ++ us) = postorders ts ++ postorders us := by
  induction ts with
  | nil => rfl
  | cons t ts ih => simp [postorders, ih]

theorem mem_postorder_node {token root : Token V ω} {cs : List (Tree V ω)} :
    token ∈ (node root cs).postorder ↔ token = root ∨ ∃ c ∈ cs, token ∈ c.postorder := by
  simp [postorder, mem_postorders, or_comm]

end Tree

end Formula
