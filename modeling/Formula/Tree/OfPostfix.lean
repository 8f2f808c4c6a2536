/-
Formula/Tree/OfPostfix.lean

From a postfix list to its tree.  The list is read from its end, so that parents
come before their children and children come last to first.  A token that is read
becomes the first child so far of the innermost token that still has room, and the
tokens on the way out from the last one read form a spine of open `Frame`s.

A frame whose token has all its children is closed: its tree becomes a child of
the next frame out.  A token that finds no frame with room is unexpected.  At the
end all frames are closed, and the tree is accepted if every node is complete; of
the incomplete ones, the first in the order root, last child, …, first child is
reported.
-/
import Formula.Error
import Formula.Text.Quoted
import Formula.Tree.Basic

namespace Formula

variable {V ω : Type}

/-- Why a postfix list has no tree. -/
inductive TreeError (V ω : Type) where
  /-- There are no tokens. -/
  | emptyExpression
  /-- No token has room for this one. -/
  | unexpected (token : Token V ω)
  /-- A token lacks an operand. -/
  | missingOperand (token : Token V ω)
  deriving DecidableEq, Repr

namespace Tree

/-! ### The spine -/

/-- A token with the children found so far. -/
structure Frame (V ω : Type) where
  token : Token V ω
  children : List (Tree V ω) := []

namespace Frame

/-- Does the token have room for another child? -/
def hasRoom (f : Frame V ω) : Bool := (f.children.length : Int) < f.token.item.arity

/-- The tree of a closed frame. -/
def close (f : Frame V ω) : Tree V ω := node f.token f.children

/-- Takes a tree in as the first child. -/
def receive (f : Frame V ω) (t : Tree V ω) : Frame V ω := { f with children := t :: f.children }

end Frame

/-- Closes frames from the inside until one has room.  Nothing if none has. -/
def settle : Frame V ω → List (Frame V ω) → Option (List (Frame V ω))
  | f, outer =>
    if f.hasRoom then some (f :: outer)
    else
      match outer with
      | [] => none
      | g :: outer => settle (g.receive f.close) outer

/-- Reads one more token, from the right.  The innermost frame comes first. -/
def extend (spine : List (Frame V ω)) (t : Token V ω) :
    Except (TreeError V ω) (List (Frame V ω)) :=
  match spine with
  | [] => .ok [⟨t, []⟩]
  | f :: outer =>
    match settle f outer with
    | none => .error (.unexpected t)
    | some spine => .ok (⟨t, []⟩ :: spine)

/-- Reads tokens, from the right. -/
def extendAll (spine : List (Frame V ω)) :
    List (Token V ω) → Except (TreeError V ω) (List (Frame V ω))
  | [] => .ok spine
  | t :: ts =>
    match extend spine t with
    | .error e => .error e
    | .ok spine => extendAll spine ts

/-- Closes all frames around the innermost one. -/
def closeAll : Frame V ω → List (Frame V ω) → Tree V ω
  | f, [] => f.close
  | f, g :: outer => closeAll (g.receive f.close) outer

/-! ### Completeness -/

mutual

/-- The token of the first incomplete node: the root, or else the last child with
one. -/
def incomplete? : Tree V ω → Option (Token V ω)
  | node t cs => if (node t cs).isComplete then incompletes? cs else some t

/-- The token of the first incomplete node of several trees, the last tree first. -/
def incompletes? : List (Tree V ω) → Option (Token V ω)
  | [] => none
  | t :: ts =>
    match incompletes? ts with
    | some token => some token
    | none => incomplete? t

end

/-- The tree of a postfix list. -/
def ofPostfix (ts : List (Token V ω)) : Except (TreeError V ω) (Tree V ω) :=
  match extendAll [] ts.reverse with
  | .error e => .error e
  | .ok [] => .error .emptyExpression
  | .ok (f :: outer) =>
    let t := closeAll f outer
    match t.incomplete? with
    | some token => .error (.missingOperand token)
    | none => .ok t

end Tree

/-! ### Messages -/

/-- The report of an error; `describe` writes operands. -/
def TreeError.diagnosis (describe : V → String) : TreeError V ω → Diagnosis
  | emptyExpression => { kind := .invalidExpression, message := "Empty expression" }
  | unexpected t =>
    { kind := .invalidExpression, position := located t.position
      message := "Unexpected token " ++ t.item.described describe }
  | missingOperand t =>
    { kind := .invalidExpression, position := located t.position
      message := "Missing operand for " ++ t.item.described describe }

end Formula
