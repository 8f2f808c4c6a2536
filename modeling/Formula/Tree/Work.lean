/-
Formula/Tree/Work.lean

The bookkeeping of a walk over a tree with an explicit stack.  A job is a tree
that is still to be dealt with, together with the word whether its children have
been dealt with already.  Dealing with a tree puts jobs for its children in front
of a second job for the tree itself; `work` goes down at every step, so the walk
ends.

Results wait on a stack of their own, the last one on top, and `take?` takes those
of the children off again.
-/
import Formula.Tree.Basic

namespace Formula.Tree

variable {V ω : Type}

/-- A tree to be dealt with, and whether its children have been. -/
abbrev Job (V ω : Type) := Tree V ω × Bool

/-- The jobs of trees that have not been touched. -/
def fresh : List (Tree V ω) → List (Job V ω)
  | [] => []
  | t :: ts => (t, false) :: fresh ts

/-- The work that a job stands for. -/
def weight : Job V ω → Nat
  | (t, false) => 2 * t.size
  | (_, true) => 1

/-- The work that a list of jobs stands for. -/
def work : List (Job V ω) → Nat
  | [] => 0
  | j :: js => weight j + work js

/-- Takes the top `n` entries off a stack, the deepest first.  Nothing if there
are not that many. -/
def take? {α : Type} (n : Nat) (stack : List α) : Option (List α × List α) :=
  if n ≤ stack.length then some ((stack.take n).reverse, stack.drop n) else none

/-! ### Small facts -/

theorem weight_pos (j : Job V ω) : 0 < weight j := by
  obtain ⟨t, expanded⟩ := j
  cases expanded
  · have := size_pos t
    simp only [weight]
    omega
  · simp [weight]

theorem work_append (js ks : List (Job V ω)) : work (js ++ ks) = work js + work ks := by
  induction js with
  | nil => simp [work]
  | cons j js ih => simp [work, ih, Nat.add_assoc]

theorem work_fresh (ts : List (Tree V ω)) : work (fresh ts) = 2 * sizes ts := by
  induction ts with
  | nil => rfl
  | cons t ts ih => simp [fresh, work, weight, sizes, ih, Nat.mul_add]

/-- Dealing with the children first is less work than the whole tree. -/
theorem work_expand (token : Token V ω) (cs : List (Tree V ω)) (js : List (Job V ω)) :
    work (fresh cs ++ (node token cs, true) :: js) < work ((node token cs, false) :: js) := by
  simp only [work_append, work_fresh, work, weight, size]
  omega

/-- A job that is done is less work. -/
theorem work_tail (j : Job V ω) (js : List (Job V ω)) : work js < work (j :: js) := by
  have := weight_pos j
  simp only [work]
  omega

/-- An operand alone is less work than the tree above it. -/
theorem work_operand (token : Token V ω) {c : Tree V ω} {cs : List (Tree V ω)} (h : c ∈ cs)
    (js : List (Job V ω)) : work [(c, false)] < work ((node token cs, false) :: js) := by
  have := size_lt_of_mem token h
  simp only [work, weight]
  omega

theorem take?_append {α : Type} (xs stack : List α) :
    take? xs.length (xs.reverse ++ stack) = some (xs, stack) := by
  have front : (xs.reverse ++ stack).take xs.length = xs.reverse := by
    simp
  have back : (xs.reverse ++ stack).drop xs.length = stack := by
    simp
  simp [take?, front, back]

end Formula.Tree
